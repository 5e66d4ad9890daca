import Compiscript.Parse.Parser
import Mathlib.Data.List.Infix

/-!
# Errors of a Parser Run

Errors are only ever added, so a run that ends without any had none at any
time. And without an error nothing is mended: as long as no error was reported,
each step of the parser either goes on in the plain way or reports one.
-/

namespace Compiscript.Session

open List

variable {la : Lookahead} {n next : Nat} {returns : List Nat} {s s' : Session}

section Errors

@[simp] lemma errors_consume (s : Session) : s.consume.errors = s.errors := by
  by_cases h : s.current.kind = .endOfInput <;> simp [consume, h]

@[simp] lemma errors_skipTo (ks : Kinds) (s : Session) : (s.skipTo ks).errors = s.errors := by
  have hgo : ∀ ts s, (skipTo.go ks ts s).errors = s.errors := by
    intro ts
    induction ts with
    | nil => exact fun _ => rfl
    | cons t ts ih =>
      intro s
      rw [skipTo.go]
      split
      · rfl
      · rw [ih, errors_consume]
  exact hgo _ _

lemma errors_report (s : Session) (t : Token) (fault : SyntaxFault) :
    s.errors <:+ (s.report t fault).errors := by
  unfold report
  split
  · exact suffix_refl _
  · exact suffix_cons _ _

lemma errors_report_ne_nil (h : s.recovering = false) (t : Token) (fault : SyntaxFault) :
    (s.report t fault).errors ≠ [] := by
  rw [report, h]
  exact cons_ne_nil _ _

/-- What giving up a rule does behind its complaint. -/
def abandon (la : Lookahead) (n : Nat) (returns : List Nat) (s : Session) : Session :=
  let s := if s.gaveUpAt = some s.index && s.gaveUpIn.contains n then s.consume else s
  { s with gaveUpAt := some s.index, gaveUpIn := n :: s.gaveUpIn }.skipTo (la.recovery returns)

lemma errors_abandon (s : Session) : (s.abandon la n returns).errors = s.errors := by
  rw [abandon, errors_skipTo]
  dsimp only
  split
  · exact errors_consume s
  · rfl

variable (la n next returns)

lemma giveUp_eq (why : Failure) (s : Session) :
    ∃ t fault, s.giveUp la n returns why = (s.report t fault).abandon la n returns := by
  cases why with
  | mismatch => exact ⟨_, _, rfl⟩
  | noBranch read => exact ⟨_, _, rfl⟩

lemma errors_giveUp (why : Failure) (s : Session) :
    s.errors <:+ (s.giveUp la n returns why).errors := by
  obtain ⟨t, fault, heq⟩ := giveUp_eq la n returns why s
  rw [heq, errors_abandon]
  exact errors_report s t fault

lemma errors_giveUp_ne_nil (h : s.recovering = false) (why : Failure) :
    (s.giveUp la n returns why).errors ≠ [] := by
  obtain ⟨t, fault, heq⟩ := giveUp_eq la n returns why s
  rw [heq, errors_abandon]
  exact errors_report_ne_nil h t fault

lemma leaveOut?_eq_some (h : s.leaveOut? la n returns = some s') :
    ∃ t fault, s'.errors = (s.report t fault).errors := by
  unfold leaveOut? at h
  dsimp only at h
  split at h
  · injection h with h
    refine ⟨s.current, .extraneous s.current.text (la.expected n returns), ?_⟩
    rw [← h]
    exact errors_consume _
  · cases h

lemma read_cases (ks : Kinds) (single : Bool) (s : Session) :
    (ks.mem s.current.kind = true ∧ s.read la n next returns ks single = .ok s.settle.consume) ∨
      (∃ s' t fault, s.read la n next returns ks single = .ok s' ∧
        s'.errors = (s.report t fault).errors) ∨
      ∃ why, s.read la n next returns ks single = .error why := by
  unfold read
  split
  · rename_i hmem
    exact .inl ⟨hmem, rfl⟩
  · split
    · rename_i s' hlv
      obtain ⟨t, fault, her⟩ := leaveOut?_eq_some la n returns hlv
      exact .inr (.inl ⟨_, t, fault, rfl, (errors_consume s').trans her⟩)
    · dsimp only
      split
      · refine .inr (.inl ⟨_, s.current, .missing (la.expected n returns) s.current.text, rfl, ?_⟩)
        split <;> rfl
      · exact .inr (.inr ⟨_, rfl⟩)

lemma sync_cases (s : Session) : s.sync la n returns = .ok s ∨
      (∃ s' t fault, s.sync la n returns = .ok s' ∧ s'.errors = (s.report t fault).errors) ∨
      ∃ why, s.sync la n returns = .error why := by
  unfold sync
  split
  · exact .inl rfl
  · split
    · rename_i s' hlv
      obtain ⟨t, fault, her⟩ := leaveOut?_eq_some la n returns hlv
      exact .inr (.inl ⟨_, t, fault, rfl, her⟩)
    · exact .inr (.inr ⟨_, rfl⟩)

lemma syncAgain_cases (s : Session) : s.syncAgain la n returns = s ∨
      ∃ t fault, (s.syncAgain la n returns).errors = (s.report t fault).errors := by
  unfold syncAgain
  dsimp only
  split
  · exact .inl rfl
  · exact .inr ⟨s.current, .extraneous s.current.text _, errors_skipTo _ _⟩

/-- Branches that a prediction chooses have numbers of their own, so what is
    decided on is one of the branches. -/
lemma decide_mem {kind : Fork} {branches : List Nat} {b : Nat}
    (h : s.decide la n kind branches returns = .ok b) : b ∈ branches := by
  unfold Session.decide at h
  split at h
  · dsimp only at h
    split at h
    · split at h
      · rename_i b' hfind
        injection h with h
        exact h ▸ mem_of_find?_eq_some hfind
      · cases h
    · injection h with h
      split at h <;> simp [← h]
    · cases h
  · split at h
    · split at h
      · rename_i b' hget
        injection h with h
        exact h ▸ mem_of_getElem? hget
      · cases h
    · cases h

variable {fuel : Nat}

lemma errors_decide (s : Session) (d : Nat) (kind : Fork) (branches : List Nat)
    (hwk : ∀ b, s.errors <:+ (s.walk la fuel b returns).errors) :
    s.errors <:+ (match s.decide la d kind branches returns with
      | .ok b => walk la fuel b returns s
      | .error why => s.giveUp la n returns why).errors := by
  split
  · exact hwk _
  · exact errors_giveUp la n returns _ s

lemma errors_read (s : Session) (ks : Kinds) (single : Bool)
    (hwk : ∀ s : Session, s.errors <:+ (s.walk la fuel next returns).errors) :
    s.errors <:+ (match s.read la n next returns ks single with
      | .ok s => walk la fuel next returns s
      | .error why => s.giveUp la n returns why).errors := by
  rcases read_cases la n next returns ks single s with
    ⟨-, hrd⟩ | ⟨s', t, fault, hrd, her⟩ | ⟨why, hrd⟩
  · rw [hrd]
    refine IsSuffix.trans ?_ (hwk _)
    rw [errors_consume]
    exact suffix_refl _
  · rw [hrd]
    exact (her ▸ errors_report s t fault).trans (hwk s')
  · rw [hrd]
    exact errors_giveUp la n returns why s

lemma errors_walk (fuel : Nat) (s : Session) : s.errors <:+ (s.walk la fuel n returns).errors := by
  induction fuel generalizing n returns s with
  | zero => exact suffix_refl _
  | succ fuel ih =>
    -- Reading and deciding add a complaint at most.
    have hrd := fun ks single next => errors_read la n next returns s ks single (ih next returns)
    have hdec := fun (s : Session) d kind branches =>
      errors_decide la n returns s d kind branches fun b => ih b returns s
    rw [walk]
    split
    · exact suffix_refl _
    · rename_i l next _
      exact ih next returns { s with label := some l }
    · exact hrd _ _ _
    · exact hrd _ _ _
    · rename_i r next _
      exact (ih (la.start r) (next :: returns) { s with children := [], label := none }).trans
        (ih next returns { walk la fuel (la.start r) (next :: returns)
          { s with children := [], label := none } with children := _, label := s.label })
    · rename_i kind branches _
      rcases sync_cases la n returns s with hsync | ⟨s', t, fault, hsync, her⟩ | ⟨why, hsync⟩
      · rw [hsync]
        exact hdec s n kind branches
      · rw [hsync]
        exact (her ▸ errors_report s t fault).trans (hdec s' n kind branches)
      · rw [hsync]
        exact errors_giveUp la n returns why s
    · rename_i entry _
      have hag : s.errors <:+ (s.syncAgain la n returns).errors := by
        rcases syncAgain_cases la n returns s with hsync | ⟨t, fault, her⟩
        · rw [hsync]
        · exact her ▸ errors_report s t fault
      dsimp only
      split
      · exact hag.trans (hdec _ entry _ _)
      · exact hag

lemma errors_eq_nil_of_walk (h : (s.walk la fuel n returns).errors = []) : s.errors = [] :=
  suffix_nil.1 (h ▸ errors_walk la n returns fuel s)

end Errors

section Plain

variable {fuel m entry : Nat} {ks : Kinds} {kind : Fork} {branches : List Nat}

lemma walk_name {l : Label} (hn : la.node n = .name l next) :
    s.walk la (fuel + 1) n returns = { s with label := some l }.walk la fuel next returns := by
  rw [walk, hn]

/-- A call: the rule is read into a node of its own. -/
lemma walk_call {r : Rule} (hn : la.node n = .call r next)
    (h : (s.walk la (fuel + 1) n returns).errors = []) :
    ∃ inner, inner = { s with children := [], label := none }.walk la fuel (la.start r)
        (next :: returns) ∧ inner.errors = [] ∧ s.walk la (fuel + 1) n returns = { inner with
        children := .node ⟨r, inner.label⟩ s.current.pos inner.children.reverse :: s.children
        label := s.label }.walk la fuel next returns := by
  rw [walk, hn] at h ⊢
  dsimp only at h ⊢
  have hinn := errors_eq_nil_of_walk la next returns h
  exact ⟨_, rfl, hinn, rfl⟩

lemma walk_decide (hs : s.recovering = false)
    (h : (match s.decide la m kind branches returns with
      | .ok b => walk la fuel b returns s
      | .error why => s.giveUp la n returns why).errors = []) :
    ∃ b ∈ branches, (match s.decide la m kind branches returns with
      | .ok b => walk la fuel b returns s
      | .error why => s.giveUp la n returns why) = s.walk la fuel b returns := by
  cases hdec : s.decide la m kind branches returns with
  | error why =>
    rw [hdec] at h
    exact absurd h (errors_giveUp_ne_nil la n returns hs why)
  | ok b => exact ⟨b, decide_mem la m returns hdec, rfl⟩

variable (hs : s.recovering = false) (h : (s.walk la (fuel + 1) n returns).errors = [])

include hs h

lemma walk_read (single : Bool)
    (hwk : s.walk la (fuel + 1) n returns = match s.read la n next returns ks single with
      | .ok s => walk la fuel next returns s
      | .error why => s.giveUp la n returns why) :
    ks.mem s.current.kind = true ∧
      s.walk la (fuel + 1) n returns = s.settle.consume.walk la fuel next returns := by
  rcases read_cases la n next returns ks single s with
    ⟨hmem, hrd⟩ | ⟨s', t, fault, hrd, her⟩ | ⟨why, hrd⟩
  · rw [hrd] at hwk
    exact ⟨hmem, hwk⟩
  · rw [hwk, hrd] at h
    have hnil := errors_eq_nil_of_walk la next returns h
    rw [her] at hnil
    exact absurd hnil (errors_report_ne_nil hs t fault)
  · rw [hwk, hrd] at h
    exact absurd h (errors_giveUp_ne_nil la n returns hs why)

lemma walk_token {k : Kind} (hn : la.node n = .token k next) :
    (Kinds.ofList [k]).mem s.current.kind = true ∧
      s.walk la (fuel + 1) n returns = s.settle.consume.walk la fuel next returns :=
  walk_read hs h true (by rw [walk]; exact hn ▸ rfl)

lemma walk_oneOf (hn : la.node n = .oneOf ks next) : ks.mem s.current.kind = true ∧
      s.walk la (fuel + 1) n returns = s.settle.consume.walk la fuel next returns :=
  walk_read hs h false (by rw [walk]; exact hn ▸ rfl)

/-- A decision that is come to from outside. -/
lemma walk_fork (hn : la.node n = .fork kind branches) :
    ∃ b ∈ branches, s.walk la (fuel + 1) n returns = s.walk la fuel b returns := by
  rw [walk, hn] at h ⊢
  dsimp only at h ⊢
  rcases sync_cases la n returns s with hsync | ⟨s', t, fault, hsync, her⟩ | ⟨why, hsync⟩
  · rw [hsync] at h ⊢
    exact walk_decide hs h
  · rw [hsync] at h
    have hsuf := (errors_decide la n returns s' n kind branches
      fun b => errors_walk la b returns fuel s').trans (suffix_nil.2 h)
    rw [her] at hsuf
    exact absurd (suffix_nil.1 hsuf) (errors_report_ne_nil hs t fault)
  · rw [hsync] at h
    exact absurd h (errors_giveUp_ne_nil la n returns hs why)

/-- A decision that is come to from the body of a repeated group. -/
lemma walk_again (hn : la.node n = .again entry) (hent : la.node entry = .fork kind branches) :
    ∃ b ∈ branches, s.walk la (fuel + 1) n returns = s.walk la fuel b returns := by
  rw [walk, hn] at h ⊢
  dsimp only at h ⊢
  rw [hent] at h ⊢
  dsimp only at h ⊢
  rcases syncAgain_cases la n returns s with hsync | ⟨t, fault, her⟩
  · rw [hsync] at h ⊢
    exact walk_decide hs h
  · have hsuf := (errors_decide la n returns (s.syncAgain la n returns) entry kind branches
      fun b => errors_walk la b returns fuel _).trans (suffix_nil.2 h)
    rw [her] at hsuf
    exact absurd (suffix_nil.1 hsuf) (errors_report_ne_nil hs t fault)

end Plain

end Compiscript.Session
