import Compiscript.Proofs.Grammar.Places

/-!
# States of a Run

A state that a run from the start of the first rule can be in.

The node stands in some rule, the first node to return to is behind a call of this rule, and so
on down to the first rule, which nobody calls. Runs do not leave such states, and they come to
the end of the first rule only by reading the end of the input.
-/

namespace Compiscript.Network

/-- Nodes to return to from a rule, each behind a call in the rule of the next one. -/
inductive Chain (net : Network) : Rule → List Nat → Prop where
  | nil : Chain net .program []
  | cons {r r' : Rule} {m f h : Nat} {rs : List Nat} (hca : net.node m = .call r f)
      (hs : net.Stands r' m h) (hrs : Chain net r' rs) : Chain net r (f :: rs)

/-- A state that a run can be in. -/
def Located (net : Network) (n : Nat) (rs : List Nat) : Prop :=
  ∃ r h, net.Stands r n h ∧ net.Chain r rs

section States

variable {net : Network} (hho : ∀ r, net.Holds r (production r)) {n m : Nat}
  {rs ms : List Nat} {ks : List Kind} {k : Kind} {r q : Rule}

include hho

variable {f : Nat}

lemma Chain.uncons (h : net.Chain r (f :: rs)) :
    ∃ r' m, net.node m = .call r f ∧ r ≠ .program ∧ net.Stands r' f wayBound ∧
      f ≠ Rule.program.index ∧ net.Chain r' rs := by
  cases h with
  | cons hca hs hrs =>
    have hon := hs.onward hho
    rw [hca] at hon
    exact ⟨_, _, hca, hon.1, hon.2.2.1, hon.2.2.2, hrs⟩

lemma Chain.program (h : net.Chain .program rs) : rs = [] := by
  cases rs with
  | nil => rfl
  | cons f rs =>
    obtain ⟨_, _, _, hne, _⟩ := h.uncons hho
    exact absurd rfl hne

lemma start_ne_index (r : Rule) : net.start r ≠ Rule.program.index := by
  intro h
  exact (mustRead_start hho r).not_stop .program (h ▸ (hho .program).stop)

lemma Located.onward {x : Node} (hnd : net.node n = x) (hn : net.Located n rs) :
    ∃ r h, net.Chain r rs ∧ net.Onward r n h x := by
  obtain ⟨r, h, hs, hrs⟩ := hn
  exact ⟨r, h, hrs, hnd ▸ hs.onward hho⟩

lemma Located.start (hca : net.node n = .call q m) (hn : net.Located n rs) :
    net.Located (net.start q) (m :: rs) := by
  obtain ⟨r, h, hs, hrs⟩ := hn
  exact ⟨q, _, .start (hho q), .cons hca hs hrs⟩

lemma Located.back (hn : net.Located n (f :: rs)) : net.Located f rs ∧ f ≠ Rule.program.index := by
  obtain ⟨r, h, hs, hrs⟩ := hn
  obtain ⟨r', _, _, _, hf, hne, hrs⟩ := hrs.uncons hho
  exact ⟨⟨r', _, hf, hrs⟩, hne⟩

lemma Located.eq_index (hsp : net.node n = .stop q) (hn : net.Located n rs) :
    n = q.index ∧ net.Chain q rs := by
  obtain ⟨r, h, hrs, rfl, hidx⟩ := hn.onward hho hsp
  exact ⟨hidx, hrs⟩

/-- Runs lead from states to states, and to the end of the first rule only by reading the end of
    the input. -/
lemma Reaches.located (hrun : net.Reaches n rs ks m ms) (hn : net.Located n rs) : net.Located m ms ∧
      (n ≠ Rule.program.index → Kind.endOfInput ∉ ks → m ≠ Rule.program.index) := by
  induction hrun with
  | refl => exact ⟨hn, fun hne _ => hne⟩
  | @token n next _ rs _ k _ hnd _ ih =>
    obtain ⟨r, h, hrs, hon⟩ := hn.onward hho hnd
    obtain ⟨hm, hne⟩ := ih ⟨r, _, hon.1, hrs⟩
    refine ⟨hm, fun _ hks => hne ?_ fun hmem => hks (.tail _ hmem)⟩
    have hk : k ≠ .endOfInput := fun h => hks (h ▸ List.mem_cons_self)
    have hnx := hon.2
    rwa [if_neg hk] at hnx
  | oneOf hnd _ _ ih =>
    obtain ⟨r, h, hrs, -, hnx, hidx⟩ := hn.onward hho hnd
    obtain ⟨hm, hne⟩ := ih ⟨r, _, hnx, hrs⟩
    exact ⟨hm, fun _ hks => hne hidx fun hmem => hks (.tail _ hmem)⟩
  | call hnd _ ih =>
    obtain ⟨hm, hne⟩ := ih (hn.start hho hnd)
    exact ⟨hm, fun _ => hne (start_ne_index hho _)⟩
  | fork hnd hb _ ih =>
    obtain ⟨r, h, hrs, hon⟩ := hn.onward hho hnd
    obtain ⟨hnx, hidx⟩ := hon.1 _ hb
    obtain ⟨hm, hne⟩ := ih ⟨r, _, hnx, hrs⟩
    exact ⟨hm, fun _ => hne hidx⟩
  | again hnd _ ih =>
    obtain ⟨r, h, hrs, hon⟩ := hn.onward hho hnd
    obtain ⟨hm, hne⟩ := ih ⟨r, _, hon.1, hrs⟩
    exact ⟨hm, fun _ => hne hon.2.1⟩
  | name hnd _ ih =>
    obtain ⟨r, h, hrs, hon⟩ := hn.onward hho hnd
    obtain ⟨hm, hne⟩ := ih ⟨r, _, hon.1, hrs⟩
    exact ⟨hm, fun _ => hne hon.2⟩
  | back _ _ ih =>
    obtain ⟨hf, hidx⟩ := hn.back hho
    obtain ⟨hm, hne⟩ := ih hf
    exact ⟨hm, fun _ => hne hidx⟩

/-- Where nothing is left to return to at the end of a rule, it is the first one. -/
lemma Located.eq_program (hsp : net.node n = .stop q) (hn : net.Located n []) :
    q = .program ∧ n = Rule.program.index := by
  obtain ⟨hidx, hrs⟩ := hn.eq_index hho hsp
  cases hrs
  exact ⟨rfl, hidx⟩

/-- Only the end of the first rule accepts nothing. -/
lemma Located.accepts_nil (hn : net.Located n rs) (h : net.Accepts n rs []) :
    n = Rule.program.index ∧ rs = [] := by
  obtain ⟨m, q, hm, hrun⟩ := h
  obtain ⟨hloc, hne⟩ := hrun.located hho hn
  obtain ⟨-, hidx⟩ := hloc.eq_program hho hm
  have heq : n = Rule.program.index := by
    by_contra hcon
    exact hne hcon nofun hidx
  subst heq
  exact ⟨rfl, ((hn.eq_index hho (hho .program).stop).2).program hho⟩

/-- A state that reads the end of the input is in the first rule. -/
lemma Located.reads_end {next : Nat} (hnd : net.node n = .token .endOfInput next)
    (hn : net.Located n rs) : next = Rule.program.index ∧ rs = [] := by
  obtain ⟨r, h, hrs, -, hon⟩ := hn.onward hho hnd
  rw [if_pos rfl] at hon
  obtain ⟨rfl, rfl⟩ := hon
  exact ⟨rfl, hrs.program hho⟩

/-- Nothing comes after the end of the input. -/
lemma Located.accepts_end {next : Nat} (hnd : net.node n = .token .endOfInput next)
    (hn : net.Located n rs) (h : net.Accepts next rs ks) :
    next = Rule.program.index ∧ rs = [] ∧ ks = [] := by
  obtain ⟨rfl, rfl⟩ := hn.reads_end hho hnd
  exact ⟨rfl, rfl, (accepts_stop (hho .program).stop).1 h⟩

omit hho in
lemma Reaches.eq_nil_of_stop (hsp : net.node n = .stop q) (hrun : net.Reaches n [] ks m ms) :
    ks = [] := by
  cases hrun with
  | refl => rfl
  | token hn | oneOf hn | call hn | fork hn | again hn | name hn => rw [hsp] at hn; cases hn

lemma Reaches.end_last (hrun : net.Reaches n rs ks m ms) (hn : net.Located n rs)
    {pre post : List Kind} (hks : ks = pre ++ .endOfInput :: post) : post = [] := by
  induction hrun generalizing pre with
  | refl => simp at hks
  | @token n next _ rs _ k _ hnd hr ih =>
    cases pre with
    | nil =>
      obtain ⟨rfl, rfl⟩ := List.cons.inj hks
      obtain ⟨rfl, rfl⟩ := hn.reads_end hho hnd
      exact hr.eq_nil_of_stop (hho .program).stop
    | cons _ pre =>
      exact ih ((Reaches.token hnd (.refl _ _)).located hho hn).1 (List.cons.inj hks).2
  | oneOf hnd hk _ ih =>
    cases pre with
    | nil =>
      obtain ⟨rfl, -⟩ := List.cons.inj hks
      obtain ⟨r, h, -, hno, -⟩ := hn.onward hho hnd
      rw [hno] at hk
      cases hk
    | cons _ pre =>
      exact ih ((Reaches.oneOf hnd hk (.refl _ _)).located hho hn).1 (List.cons.inj hks).2
  | call hnd _ ih => exact ih (hn.start hho hnd) hks
  | fork hnd hb _ ih => exact ih ((Reaches.fork hnd hb (.refl _ _)).located hho hn).1 hks
  | again hnd _ ih => exact ih ((Reaches.again hnd (.refl _ _)).located hho hn).1 hks
  | name hnd _ ih => exact ih ((Reaches.name hnd (.refl _ _)).located hho hn).1 hks
  | back _ _ ih => exact ih (hn.back hho).1 hks

/-- What the first rule accepts ends with the end of the input. -/
lemma accepts_start (h : net.Accepts (net.start .program) [] ks) :
    ∃ pre, ks = pre ++ [.endOfInput] ∧ Kind.endOfInput ∉ pre := by
  obtain ⟨m, q, hm, hrun⟩ := h
  have hn : net.Located (net.start .program) [] := ⟨.program, _, .start (hho .program), .nil⟩
  obtain ⟨hloc, hne⟩ := hrun.located hho hn
  have hmem : Kind.endOfInput ∈ ks := by
    by_contra hks
    exact hne (start_ne_index hho _) hks (hloc.eq_program hho hm).2
  obtain ⟨pre, post, rfl, hpre⟩ := List.eq_append_cons_of_mem hmem
  rw [hrun.end_last hho hn rfl]
  exact ⟨pre, rfl, hpre⟩

end States

end Compiscript.Network
