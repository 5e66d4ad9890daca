import Compiscript.Parse.Prediction
import Compiscript.Proofs.Grammar.States
import Compiscript.Proofs.Grammar.Tables
import Compiscript.Proofs.Parse.Unions

/-!
# Configurations and States

What the configurations of a prediction say about the runs of the network.

A configuration stands for states: its node with any of its stacks. No state is lost
when configurations settle, whether the callers are known or not: a state that can read
what is ahead is found again at the token that it reads next.
-/

namespace Compiscript

open List hiding set

open Network

namespace Config

/-- A state that one of several configurations stands for. -/
def Covered (scope : Scope) (cs : List Config) (n : Nat) (rs : List Nat) : Prop :=
  ∃ c ∈ cs, c.node = n ∧ c.returns.Covers (scope == .local) rs

/-- Configurations from which tokens can be read to the very end. -/
def Live (la : Lookahead) (scope : Scope) (cs : List Config) (ks : List Kind) : Prop :=
  ∃ n rs, Covered scope cs n rs ∧ la.Located n rs ∧ la.Accepts n rs ks

/-- Configurations that can read a token and go on from there to the very end. -/
def Expects (la : Lookahead) (scope : Scope) (cs : List Config) (k : Kind) (ks : List Kind) :
    Prop :=
  ∃ n rs, Covered scope cs n rs ∧ la.Located n rs ∧ la.ReadsAt n k = true ∧
    la.Accepts n rs (k :: ks)

section Unite

variable {scope : Scope} {c : Config} {cs new : List Config} {n : Nat} {rs : List Nat}

lemma Covered.subset (h : Covered scope cs n rs) (hsub : cs ⊆ new) : Covered scope new n rs := by
  obtain ⟨c, hc, hcov⟩ := h
  exact ⟨c, hsub hc, hcov⟩

lemma covered_add (h : Covered scope (c :: cs) n rs) : Covered scope (c.add scope cs) n rs := by
  induction cs with
  | nil => exact h
  | cons d cs ih =>
    unfold Config.add
    split
    · rename_i hnd
      obtain ⟨e, he, rfl, hcov⟩ := h
      rcases mem_cons.1 he with rfl | he
      · exact ⟨_, .head _, hnd, Stacks.covers_merge (.inr hcov)⟩
      · rcases mem_cons.1 he with rfl | he
        · exact ⟨_, .head _, rfl, Stacks.covers_merge (.inl hcov)⟩
        · exact ⟨e, .tail _ he, rfl, hcov⟩
    · obtain ⟨e, he, hcov⟩ := h
      rcases mem_cons.1 he with rfl | he
      · exact (ih ⟨e, .head _, hcov⟩).subset (subset_cons_self _ _)
      · rcases mem_cons.1 he with rfl | he
        · exact ⟨e, .head _, hcov⟩
        · exact (ih ⟨e, .tail _ he, hcov⟩).subset (subset_cons_self _ _)

/-- No state is lost when configurations are united. -/
lemma covered_unite (h : Covered scope (new ++ cs) n rs) :
    Covered scope (new.foldl (fun cs c => c.add scope cs) cs) n rs := by
  induction new generalizing cs with
  | nil => exact h
  | cons c new ih =>
    refine ih ?_
    obtain ⟨d, hd, hcov⟩ := h
    rw [cons_append, mem_cons, mem_append] at hd
    rcases hd with rfl | hd | hd
    · exact (covered_add ⟨d, .head _, hcov⟩).subset (subset_append_right _ _)
    · exact ⟨d, mem_append_left _ hd, hcov⟩
    · exact (covered_add ⟨d, .tail _ hd, hcov⟩).subset (subset_append_right _ _)

/-- What is true of all configurations stays true when they are united. -/
lemma forall_unite {P : Config → Prop} (hmerge : ∀ c d : Config, c.node = d.node → P c → P d →
      P ⟨c.node, c.returns.merge (scope == .local) d.returns, c.left || d.left⟩)
    (hnew : ∀ c ∈ new, P c) (hcs : ∀ c ∈ cs, P c) :
    ∀ c ∈ new.foldl (fun cs c => c.add scope cs) cs, P c := by
  have hadd : ∀ (c : Config) (cs : List Config), P c → (∀ d ∈ cs, P d) →
      ∀ d ∈ c.add scope cs, P d := by
    intro c cs hc hcs
    induction cs with
    | nil => exact fun d hd => mem_singleton.1 hd ▸ hc
    | cons e cs ih =>
      unfold Config.add
      obtain ⟨he, hcs⟩ := forall_mem_cons.1 hcs
      split
      · rename_i hnd
        exact forall_mem_cons.2 ⟨hmerge e c hnd he hc, hcs⟩
      · exact forall_mem_cons.2 ⟨he, ih hcs⟩
  induction new generalizing cs with
  | nil => exact hcs
  | cons c new ih =>
    obtain ⟨hc, hnew⟩ := forall_mem_cons.1 hnew
    exact ih hnew (hadd c cs hc hcs)

end Unite

section Land

variable {la : Lookahead} {k? : Option Kind} {n : Nat} {set : Stacks} {left : Bool} {c : Config}

lemma wanted_iff {l : Nat} : (match k?, la.node l with
    | none, _ => true
    | some k, .token k' _ => k == k'
    | some k, .oneOf ks _ => ks.mem k
    | some _, _ => false) = true ↔ ∀ k, k? = some k → la.ReadsAt l k = true := by
  cases k? with
  | none => exact ⟨by simp, fun _ => rfl⟩
  | some k =>
    refine Iff.trans ?_ ⟨fun h k' hk => Option.some.inj hk ▸ h, fun h => h k rfl⟩
    unfold ReadsAt
    split <;> simp_all

lemma mem_land : c ∈ land la k? n set left ↔
    ∃ l ∈ la.landingsAt n, (∀ k, k? = some k → la.ReadsAt l.node k = true) ∧
      c = ⟨l.node, set.pushAll l.returns, left⟩ := by
  unfold land
  rw [mem_filterMap]
  refine exists_congr fun l => and_congr_right fun _ => ?_
  have hif : ∀ (wanted : Bool) (d : Config),
      (if wanted then some d else none) = some c ↔ wanted = true ∧ c = d := by
    intro wanted d
    cases wanted <;> simp [eq_comm]
  exact (hif _ _).trans (and_congr_left' wanted_iff)

end Land

section Forward

variable {la : Lookahead} (tells : la.Tells) {scope : Scope} {k? : Option Kind} {k : Kind}
  {ks : List Kind} {n : Nat} {rs : List Nat} {r : Rule} {set : Stacks} {left : Bool} {c : Config}
  (hk : ∀ j, k? = some j → j = k)

/-- A way from a state to a token that it can read next. -/
def Lands (la : Lookahead) (n : Nat) (rs : List Nat) (k : Kind) (ks : List Kind) : Prop :=
  la.Located n rs ∧ ∃ l ∈ la.landingsAt n, la.Accepts l.node (l.returns ++ rs) (k :: ks)

lemma readsAt_of_accepts (hn : la.IsReader n) (h : la.Accepts n rs (k :: ks)) :
    la.ReadsAt n k = true := by
  unfold IsReader at hn
  unfold ReadsAt
  cases hnd : la.node n with
  | token k' next =>
    obtain ⟨_, heq, -⟩ := (accepts_token hnd).1 h
    rw [(List.cons.inj heq).1]
    exact beq_self_eq_true k'
  | oneOf set next =>
    obtain ⟨_, _, heq, hmem, -⟩ := (accepts_oneOf hnd).1 h
    rwa [(List.cons.inj heq).1]
  | call | fork | again | name | stop =>
    rw [hnd] at hn
    exact hn.elim

include tells

lemma lands_or_ends (hn : la.Located n rs) (h : la.Accepts n rs (k :: ks)) :
    Lands la n rs k ks ∨ la.canEnd n = true ∧ la.Ends rs (k :: ks) := by
  have ⟨r, _, hs, _⟩ := hn
  exact (tells.landing hs h).imp (fun hl => ⟨hn, hl⟩) id

/-- What a state can read is among the first tokens of its node, or its rule can end. -/
lemma first_or_ends (hn : la.Located n rs) (h : la.Accepts n rs (k :: ks)) :
    (la.first n).kinds.mem k = true ∨ la.canEnd n = true ∧ la.Ends rs (k :: ks) := by
  refine (lands_or_ends tells hn h).imp (fun ⟨_, l, hl, hacc⟩ => ?_) id
  obtain ⟨-, hkds, hrdr⟩ := tells.reaches hl
  exact hkds k (readsAt_of_accepts hrdr hacc)

include hk

lemma expects_land (hlands : Lands la n rs k ks) (hset : set.Covers (scope == .local) rs) :
    Expects la scope (land la k? n set left) k ks := by
  obtain ⟨hn, l, hl, hacc⟩ := hlands
  obtain ⟨hrun, -, hrdr⟩ := tells.reaches hl
  have hrds := readsAt_of_accepts hrdr hacc
  refine ⟨l.node, l.returns ++ rs, ⟨⟨l.node, set.pushAll l.returns, left⟩, mem_land.2
    ⟨l, hl, fun j hj => hk j hj ▸ hrds, rfl⟩, rfl, hset.pushAll _⟩,
    ((hrun rs).located tells.holds hn).1, hrds, hacc⟩

omit hk

lemma exits_lands (hcha : la.Chain r rs) (hset : set.Covers (scope == .local) rs)
    (hends : la.Ends rs (k :: ks)) :
    (∃ f below rs', .return f below ∈ exits la r set ∧ below.Covers (scope == .local) rs' ∧
      Lands la f rs' k ks) ∨ scope = .local ∧ ∃ q rs', .bottom q ∈ exits la r set ∧ la.Chain q rs' ∧
        la.Ends rs' (k :: ks) := by
  obtain ⟨s, rest, hs, rfl, hr⟩ := hset
  induction hs generalizing r with
  | empty =>
    refine .inr ?_
    cases scope with
    | «local» => exact ⟨rfl, r, rest, .head _, hcha, hends⟩
    | full =>
      rw [hr rfl] at hends
      cases hends
  | @here h f below others s hs ih =>
    obtain ⟨r', m, hca, -, hf, -, hrs⟩ := hcha.uncons tells.holds
    rcases lands_or_ends tells ⟨r', _, hf, hrs⟩ hends with hlands | ⟨hend, hends⟩
    · exact .inl ⟨f, below, s ++ rest, by simp [exits], ⟨s, rest, hs, rfl, hr⟩, hlands⟩
    · have hsub : exits la (la.ruleOf f) below ⊆ exits la r (.cons h f below others) := by
        intro e he
        simp [exits, hend, he]
      rw [← tells.ruleOf hf] at hrs
      rcases ih hrs hends with ⟨f', below', rs', hmem, hr⟩ | ⟨hlocal, q, rs', hmem, hr⟩
      · exact .inl ⟨f', below', rs', hsub hmem, hr⟩
      · exact .inr ⟨hlocal, q, rs', hsub hmem, hr⟩
  | @there h f below others s hs ih =>
    have hsub : exits la r others ⊆ exits la r (.cons h f below others) := by
      intro e he
      simp [exits, he]
    rcases ih hcha hends with ⟨f', below', rs', hmem, hr⟩ | ⟨hlocal, q, rs', hmem, hr⟩
    · exact .inl ⟨f', below', rs', hsub hmem, hr⟩
    · exact .inr ⟨hlocal, q, rs', hsub hmem, hr⟩

/-- Behind the end of a rule whatever called it. -/
lemma resume_lands (hcha : la.Chain r rs) (hends : la.Ends rs (k :: ks)) :
    ∃ f ∈ la.resume r, ∃ rs', Lands la f rs' k ks := by
  -- Down the stack, the rule whose end has been come to is another one each time.
  have hall : ∀ (rs : List Nat) (q : Rule),
      (∀ m next, la.node m = .call q next → next ∈ la.resume r) → la.Chain q rs →
      la.Ends rs (k :: ks) → ∃ f ∈ la.resume r, ∃ rs', Lands la f rs' k ks := by
    intro rs
    induction rs with
    | nil => exact fun _ _ _ hends => nomatch hends
    | cons f rs ih =>
      intro q hq hcha hends
      obtain ⟨r', m, hca, -, hf, -, hrs⟩ := hcha.uncons tells.holds
      have hmem := hq m f hca
      rcases lands_or_ends tells ⟨r', _, hf, hrs⟩ hends with hlands | ⟨hend, hends⟩
      · exact ⟨f, hmem, rs, hlands⟩
      · refine ih r' (fun m next hca => ?_) hrs hends
        rw [← tells.ruleOf hf] at hca
        exact tells.resume_closed hmem hend hca
  exact hall rs r (fun m next => tells.resume_call) hcha hends

include hk

/-- A state that can read what is ahead is found again at the token. -/
lemma expects_settle (hc : c.returns.Covers (scope == .local) rs) (hn : la.Located c.node rs)
    (h : la.Accepts c.node rs (k :: ks)) : Expects la scope (c.settle la scope k?) k ks := by
  have hsub : ∀ {cs : List Config}, cs ⊆ c.settle la scope k? → Expects la scope cs k ks →
      Expects la scope (c.settle la scope k?) k ks := by
    rintro cs hsub ⟨n, rs, hcov, hr⟩
    exact ⟨n, rs, hcov.subset hsub, hr⟩
  rcases lands_or_ends tells hn h with hlands | ⟨hend, hends⟩
  · exact hsub (subset_append_left _ _) (expects_land tells hk hlands hc)
  · obtain ⟨r, _, hs, hcha⟩ := hn
    rw [← tells.ruleOf hs] at hcha
    rcases exits_lands tells hcha hc hends with ⟨f, below, rs', hmem, hbelow, hlands⟩ |
      ⟨rfl, q, rs', hmem, hcha, hends⟩
    · refine hsub (fun d hd => ?_) (@expects_land la tells scope k? k ks f rs' below c.left hk
        hlands hbelow)
      refine mem_append_right _ (mem_flatMap.2 ⟨.return f below, ?_, hd⟩)
      rwa [if_pos hend]
    · obtain ⟨f, hf, rs', hlands⟩ := resume_lands tells hcha hends
      refine hsub (fun d hd => ?_) (@expects_land la tells .local k? k ks f rs' .empty true hk
        hlands ⟨[], rs', Stacks.has_empty.2 rfl, rfl, nofun⟩)
      refine mem_append_right _ (mem_flatMap.2 ⟨.bottom q, ?_, ?_⟩)
      · rwa [if_pos hend]
      · refine mem_flatMap.2 ⟨f, hf, ?_⟩
        split
        · rename_i hsp
          obtain ⟨-, l, hl, -⟩ := hlands
          rw [tells.landings_stop hsp] at hl
          cases hl
        · exact hd

omit hk

/-- A state at the end of the first rule rests there. -/
lemma covered_settle_end (k? : Option Kind) (hc : c.returns.Covers (scope == .local) rs)
    (hn : la.Located c.node rs) (h : la.Accepts c.node rs []) :
    Covered scope (c.settle la scope k?) Rule.program.index [] := by
  obtain ⟨hnd, rfl⟩ := hn.accepts_nil tells.holds h
  obtain ⟨s, rest, hs, hnil, -⟩ := hc
  cases (append_eq_nil_iff.1 hnil.symm).1
  have hbot : ∀ {r set}, Stacks.Has set [] → .bottom r ∈ exits la r set := by
    intro r set hset
    generalize hs : ([] : List Nat) = s at hset
    induction hset with
    | empty => exact .head _
    | here => cases hs
    | there _ ih =>
      rw [exits]
      exact mem_append_right _ (ih hs)
  have hsp := (tells.holds .program).stop
  obtain ⟨r, _, hs', hcha⟩ := hn
  have hru : la.ruleOf c.node = .program := by
    rw [tells.ruleOf hs']
    cases hcha
    rfl
  have hend : la.canEnd c.node = true := hnd ▸ tells.canEnd_stop .program
  have hmem := hbot (r := .program) hs
  cases scope with
  | full =>
    refine ⟨⟨Rule.program.index, .empty, c.left⟩, ?_, rfl, (Stacks.has_empty.2 rfl).covers⟩
    refine mem_append_right _ (mem_flatMap.2 ⟨.bottom .program, ?_, ?_⟩)
    · rwa [if_pos hend, hru]
    · exact .head _
  | «local» =>
    refine ⟨⟨Rule.program.index, .empty, true⟩, ?_, rfl, (Stacks.has_empty.2 rfl).covers⟩
    refine mem_append_right _ (mem_flatMap.2 ⟨.bottom .program, ?_, ?_⟩)
    · rwa [if_pos hend, hru]
    · refine mem_flatMap.2 ⟨Rule.program.index, ?_, ?_⟩
      · rw [tells.resume_program]
        exact .head _
      · rw [hsp]
        exact .head _

end Forward

section Advance

variable {la : Lookahead} (tells : la.Tells) {scope : Scope} {k : Kind} {ks : List Kind} {n : Nat}
  {rs : List Nat} {cs : List Config}

include tells

/-- Reading a token. The end of the input is the last one. -/
lemma exists_next (hn : la.Located n rs) (hrds : la.ReadsAt n k = true)
    (h : la.Accepts n rs (k :: ks)) :
    ∃ next, (∀ c : Config, c.node = n → c.advance? la = some { c with node := next }) ∧
      la.Located next rs ∧ la.Accepts next rs ks ∧ (k = .endOfInput ↔ ks = []) := by
  have hne : n ≠ Rule.program.index := by
    rintro rfl
    rw [ReadsAt, (tells.holds .program).stop] at hrds
    cases hrds
  -- Behind any other token the first rule is not at its end.
  have hmore : ∀ next, la.Reaches n rs [k] next rs → la.Accepts next rs ks → k ≠ .endOfInput →
      ks ≠ [] := by
    rintro next hrun hacc hk rfl
    obtain ⟨hnx, hidx⟩ := hrun.located tells.holds hn
    exact hidx hne (by simpa using hk.symm) (hnx.accepts_nil tells.holds hacc).1
  cases hnd : la.node n with
  | token k' next =>
    obtain ⟨ks', heq, hacc⟩ := (accepts_token hnd).1 h
    obtain ⟨rfl, rfl⟩ := List.cons.inj heq
    have hrun : la.Reaches n rs [k] next rs := .token hnd (.refl _ _)
    refine ⟨next, fun c hc => by rw [advance?, hc, hnd], (hrun.located tells.holds hn).1, hacc,
      fun hk => ?_, fun hks => by_contra fun hk => hmore next hrun hacc hk hks⟩
    subst hk
    exact (hn.accepts_end tells.holds hnd hacc).2.2
  | oneOf set next =>
    obtain ⟨k', ks', heq, hmem, hacc⟩ := (accepts_oneOf hnd).1 h
    obtain ⟨rfl, rfl⟩ := List.cons.inj heq
    have hrun : la.Reaches n rs [k] next rs := .oneOf hnd hmem (.refl _ _)
    refine ⟨next, fun c hc => by rw [advance?, hc, hnd], (hrun.located tells.holds hn).1, hacc,
      fun hk => ?_, fun hks => by_contra fun hk => hmore next hrun hacc hk hks⟩
    obtain ⟨r, _, hs, -⟩ := hn
    have hon := hs.onward tells.holds
    rw [hnd] at hon
    rw [hk, hon.1] at hmem
    cases hmem
  | call | fork | again | name | stop =>
    rw [ReadsAt, hnd] at hrds
    cases hrds

lemma Expects.advance (h : Expects la scope cs k ks) :
    Live la scope (cs.filterMap (advance? la)) ks ∧ (k = .endOfInput ↔ ks = []) := by
  obtain ⟨n, rs, ⟨c, hc, hnd, hcov⟩, hn, hrds, hacc⟩ := h
  obtain ⟨next, hadv, hnx, haccn, hend⟩ := exists_next tells hn hrds hacc
  exact ⟨⟨next, rs, ⟨_, mem_filterMap.2 ⟨c, hc, hadv c hnd⟩, rfl, hcov⟩, hnx,
    haccn⟩, hend⟩

end Advance

/-! ### Nothing is made up -/

section Trace

variable {la : Lookahead} {m : Nat} {ms : List Nat} {js : List Kind} {k? : Option Kind} {k : Kind}
  {n : Nat} {r : Rule} {set : Stacks} {left : Bool} {c d : Config}

/-- A configuration all of whose states have been reached by a run that has read some tokens. -/
def Traced (la : Lookahead) (m : Nat) (ms : List Nat) (js : List Kind) (c : Config) : Prop :=
  ∀ s, c.returns.Has s → la.Reaches m ms js c.node s

/-- The same for what comes behind the end of a rule. -/
def Exit.Traced (la : Lookahead) (m : Nat) (ms : List Nat) (js : List Kind) : Exit → Prop
  | .return f below => ∀ s, below.Has s → la.Reaches m ms js f s
  | .bottom q => la.Reaches m ms js q.index []

lemma Traced.merge {any : Bool} (hnd : c.node = d.node) (hc : Traced la m ms js c)
    (hd : Traced la m ms js d) :
    Traced la m ms js ⟨c.node, c.returns.merge any d.returns, left⟩ := by
  intro s hs
  rcases Stacks.has_of_merge hs with hs | hs
  · exact hc s hs
  · rw [hnd]
    exact hd s hs

lemma Traced.advance (hc : Traced la m ms js c) (hrds : la.ReadsAt c.node k = true)
    (h : c.advance? la = some d) : Traced la m ms (js ++ [k]) d := by
  unfold ReadsAt at hrds
  unfold advance? at h
  cases hnd : la.node c.node with
  | token k' next =>
    rw [hnd] at h hrds
    cases h
    cases eq_of_beq hrds
    exact fun s hs => (hc s hs).trans (.token hnd (.refl _ _))
  | oneOf set next =>
    rw [hnd] at h hrds
    cases h
    exact fun s hs => (hc s hs).trans (.oneOf hnd hrds (.refl _ _))
  | call | fork | again | name | stop =>
    rw [hnd] at h
    cases h

variable (tells : la.Tells)

include tells

lemma traced_land (hset : ∀ s, set.Has s → la.Reaches m ms js n s)
    (hc : c ∈ land la k? n set left) : Traced la m ms js c := by
  obtain ⟨l, hl, -, rfl⟩ := mem_land.1 hc
  intro s hs
  obtain ⟨s, rfl, hbelow⟩ := Stacks.has_pushAll.1 hs
  have hrun := (hset s hbelow).trans ((tells.reaches hl).1 s)
  rwa [append_nil] at hrun

variable (hm : la.Located m ms)

include hm

lemma reaches_end (hend : la.canEnd n = true) (hset : ∀ s, set.Has s → la.Reaches m ms js n s)
    (s : List Nat) (hs : set.Has s) : la.Reaches m ms js (la.ruleOf n).index s := by
  have hrun := hset s hs
  obtain ⟨⟨r, _, hsta, -⟩, -⟩ := hrun.located tells.holds hm
  rw [tells.ruleOf hsta]
  have hall := hrun.trans (tells.canEnd hsta hend s)
  rwa [append_nil] at hall

lemma traced_exits (hset : ∀ s, set.Has s → la.Reaches m ms js r.index s) {e : Exit}
    (he : e ∈ exits la r set) : e.Traced la m ms js := by
  induction set generalizing r with
  | nil x =>
    cases x with
    | false => cases he
    | true =>
      cases mem_singleton.1 he
      exact hset [] .empty
  | cons h f below others ihb iho =>
    have hbelow : ∀ s, below.Has s → la.Reaches m ms js f s := by
      intro s hs
      have hrun := (hset (f :: s) (.here hs)).trans (.back (tells.holds r).stop (.refl f s))
      rwa [append_nil] at hrun
    rw [exits, cons_append, mem_cons, mem_append] at he
    rcases he with rfl | he | he
    · exact hbelow
    · split at he
      · rename_i hend
        exact ihb (reaches_end tells hm hend hbelow) he
      · cases he
    · exact iho (fun s hs => hset s (.there hs)) he

/-- If the callers are known, settling leads nowhere else. -/
lemma traced_settle (hc : Traced la m ms js c) (hd : d ∈ c.settle la .full k?) :
    Traced la m ms js d := by
  rcases mem_append.1 hd with hd | hd
  · exact traced_land tells hc hd
  · obtain ⟨e, he, hd⟩ := mem_flatMap.1 hd
    split at he
    · rename_i hend
      have hexits := traced_exits tells hm (reaches_end tells hm hend hc) he
      cases e with
      | «return» f below => exact traced_land tells hexits hd
      | bottom q =>
        cases mem_singleton.1 hd
        intro s hs
        rw [Stacks.has_empty.1 hs]
        exact hexits
    · cases he

end Trace

/-! ### Where configurations rest -/

section Rest

variable {la : Lookahead} {m : Nat} {ms : List Nat} {js : List Kind} {k? : Option Kind}
  {k : Kind} {left : Bool} {c d : Config}

/-- A configuration that is at a token or at the end of a rule, the latter with no stack. -/
def Rests (la : Lookahead) (k? : Option Kind) (c : Config) : Prop :=
  (la.IsReader c.node ∧ ∀ k, k? = some k → la.ReadsAt c.node k = true) ∨
    c.returns = .empty ∧ ∃ q, la.node c.node = .stop q

lemma Rests.merge {any : Bool} (hnd : c.node = d.node) (hc : Rests la k? c)
    (hd : Rests la k? d) : Rests la k? ⟨c.node, c.returns.merge any d.returns, left⟩ := by
  rcases hc with hc | ⟨hemp, q, hq⟩
  · exact .inl hc
  · rcases hd with ⟨hrdr, -⟩ | ⟨hempty', -⟩
    · rw [IsReader, ← hnd, hq] at hrdr
      exact hrdr.elim
    · refine .inr ⟨?_, q, hq⟩
      dsimp only
      rw [hemp, hempty', Stacks.merge_self]

lemma Rests.readsAt (h : Rests la (some k) c) (hd : c.advance? la = some d) :
    la.ReadsAt c.node k = true := by
  rcases h with ⟨-, hrds⟩ | ⟨-, q, hq⟩
  · exact hrds k rfl
  · rw [advance?, hq] at hd
    cases hd

lemma Rests.of_isFinal (h : Rests la k? c) (hc : c.isFinal la = true) :
    c.returns = .empty ∧ ∃ q, la.node c.node = .stop q := by
  rcases h with ⟨hrdr, -⟩ | h
  · unfold IsReader at hrdr
    unfold isFinal at hc
    split at hc
    · rename_i hsp
      rw [hsp] at hrdr
      exact hrdr.elim
    · cases hc
  · exact h

variable (tells : la.Tells)

include tells

lemma rests_land {n : Nat} {set : Stacks} (hc : c ∈ land la k? n set left) : Rests la k? c := by
  obtain ⟨l, hl, hrds, rfl⟩ := mem_land.1 hc
  exact .inl ⟨(tells.reaches hl).2.2, hrds⟩

lemma rests (hd : d ∈ c.settle la .full k?) : Rests la k? d := by
  rcases mem_append.1 hd with hd | hd
  · exact rests_land tells hd
  · obtain ⟨e, -, hd⟩ := mem_flatMap.1 hd
    cases e with
    | «return» f below => exact rests_land tells hd
    | bottom q =>
      cases mem_singleton.1 hd
      exact .inr ⟨rfl, q, (tells.holds q).stop⟩

/-- Only the end of the first rule is rested at. -/
lemma eq_of_isFinal (hm : la.Located m ms) (htr : Traced la m ms js c)
    (hrests : Rests la k? c) (hc : c.isFinal la = true) :
    c.node = Rule.program.index ∧ c.returns = .empty ∧
      (m ≠ Rule.program.index → Kind.endOfInput ∈ js) := by
  obtain ⟨hemp, q, hq⟩ := hrests.of_isFinal hc
  have hrun := htr [] (by rw [hemp]; exact .empty)
  obtain ⟨hloc, hne⟩ := hrun.located tells.holds hm
  have hidx := (hloc.eq_program tells.holds hq).2
  exact ⟨hidx, hemp, fun hm => by_contra fun hjs => hne hm hjs hidx⟩

end Rest

end Config

end Compiscript
