import Compiscript.Proofs.Parse.Configs

/-!
# Predictions Are Right

A prediction chooses a branch from which all tokens ahead can be read, if there is one.

A branch that can read what is ahead survives every step of either stage. So if one
branch is left, it is one of these.
-/

namespace Compiscript

open List

open Network

namespace Branch

section Forward

variable {la : Lookahead} (tells : la.Tells) {scope : Scope} {k? : Option Kind} {k : Kind}
  {ks : List Kind} {b : Branch}

lemma subset_settle {c : Config} {n : Nat} {rs : List Nat} (hc : c ∈ b.configs)
    (h : Config.Covered scope (c.settle la scope k?) n rs) :
    Config.Covered scope (b.settle la scope k?).configs n rs := by
  refine Config.covered_unite (h.subset fun d hd => mem_append_left _ ?_)
  exact mem_flatMap.2 ⟨c, hc, hd⟩

include tells

lemma expects_settle (hk : ∀ j, k? = some j → j = k)
    (h : Config.Live la scope b.configs (k :: ks)) :
    Config.Expects la scope (b.settle la scope k?).configs k ks := by
  obtain ⟨n, rs, ⟨c, hc, rfl, hcov⟩, hn, hacc⟩ := h
  obtain ⟨m, ms, hm, hr⟩ := Config.expects_settle tells hk hcov hn hacc
  exact ⟨m, ms, subset_settle hc hm, hr⟩

lemma covered_settle_end (k? : Option Kind) (h : Config.Live la scope b.configs []) :
    Config.Covered scope (b.settle la scope k?).configs Rule.program.index [] ∧
      la.Located Rule.program.index [] := by
  obtain ⟨n, rs, ⟨c, hc, rfl, hcov⟩, hn, hacc⟩ := h
  have hcove := Config.covered_settle_end tells k? hcov hn hacc
  obtain ⟨hnd, rfl⟩ := hn.accepts_nil tells.holds hacc
  exact ⟨subset_settle hc hcove, hnd ▸ hn⟩

lemma live_advance (h : Config.Expects la scope b.configs k ks) :
    Config.Live la scope (b.advance la scope).configs ks ∧ (k = .endOfInput ↔ ks = []) := by
  obtain ⟨⟨n, rs, hcov, hr⟩, hend⟩ := h.advance tells
  exact ⟨⟨n, rs, Config.covered_unite (hcov.subset (subset_append_left _ _)), hr⟩, hend⟩

lemma exists_settled (h : Config.Live la scope b.configs ks) :
    ∃ n rs, Config.Covered scope (b.settle la scope none).configs n rs ∧ la.Accepts n rs ks := by
  cases ks with
  | nil =>
    obtain ⟨hcov, -⟩ := covered_settle_end tells none h
    exact ⟨_, _, hcov, (accepts_stop (tells.holds .program).stop).2 rfl⟩
  | cons k ks =>
    have hexp : Config.Expects la scope (b.settle la scope none).configs k ks :=
      expects_settle tells nofun h
    obtain ⟨n, rs, hcov, -, -, hacc⟩ := hexp
    exact ⟨n, rs, hcov, hacc⟩

omit tells

/-- Where a branch stands after one more token. -/
def after (la : Lookahead) (scope : Scope) (k : Kind) (keep : Bool) (b : Branch) : Branch :=
  let settled := b.settle la scope (some k)
  let moved := settled.advance la scope
  let moved := if k = .endOfInput then (moved.settle la scope (some k)).finals la else moved
  if keep then
    { moved with
      configs := (settled.finals la).configs.foldl (fun cs c => c.add scope cs) moved.configs }
  else moved

lemma alt_after {keep : Bool} : (b.after la scope k keep).alt = b.alt := by
  unfold after
  dsimp only
  split <;> split <;> rfl

include tells

lemma live_after (keep : Bool) (h : Config.Live la scope b.configs (k :: ks)) :
    Config.Live la scope (b.after la scope k keep).configs ks ∧ (k = .endOfInput ↔ ks = []) := by
  obtain ⟨hlive, hend⟩ := live_advance tells
    (expects_settle tells (fun j hj => (Option.some.inj hj).symm) h)
  refine ⟨?_, hend⟩
  have hmoved : Config.Live la scope (if k = .endOfInput then
      (((b.settle la scope (some k)).advance la scope).settle la scope (some k)).finals la
      else (b.settle la scope (some k)).advance la scope).configs ks := by
    split
    · rename_i hk
      cases hend.1 hk
      obtain ⟨⟨c, hc, hnd, hcov⟩, hloc⟩ := covered_settle_end tells (some k) hlive
      have hfinal : c.isFinal la = true := by
        rw [Config.isFinal, hnd, (tells.holds .program).stop]
      exact ⟨_, _, ⟨c, mem_filter.2 ⟨hc, hfinal⟩, hnd, hcov⟩, hloc,
        (accepts_stop (tells.holds .program).stop).2 rfl⟩
    · exact hlive
  unfold after
  dsimp only
  split
  · obtain ⟨n, rs, hcov, hr⟩ := hmoved
    exact ⟨n, rs, Config.covered_unite (hcov.subset (subset_append_right _ _)), hr⟩
  · exact hmoved

end Forward

section Backward

variable {la : Lookahead} (tells : la.Tells) {k? : Option Kind} {k : Kind} {m : Nat} {ms : List Nat}
  {js : List Kind} {keep : Bool} {b : Branch}

include tells

lemma rests_settle : ∀ c ∈ (b.settle la .full k?).configs, c.Rests la k? := by
  refine Config.forall_unite (fun _ _ hnd hc hd => hc.merge hnd hd) (fun c hc => ?_) nofun
  obtain ⟨d, -, hc⟩ := mem_flatMap.1 hc
  exact Config.rests tells hc

lemma traced_settle (hm : la.Located m ms) (h : ∀ c ∈ b.configs, c.Traced la m ms js) :
    ∀ c ∈ (b.settle la .full k?).configs, c.Traced la m ms js := by
  refine Config.forall_unite (fun _ _ hnd hc hd => hc.merge hnd hd) (fun c hc => ?_) nofun
  obtain ⟨d, hd, hc⟩ := mem_flatMap.1 hc
  exact Config.traced_settle tells hm (h d hd) hc

lemma traced_advance (hm : la.Located m ms) (h : ∀ c ∈ b.configs, c.Traced la m ms js) :
    ∀ c ∈ ((b.settle la .full (some k)).advance la .full).configs,
      c.Traced la m ms (js ++ [k]) := by
  refine Config.forall_unite (fun _ _ hnd hc hd => hc.merge hnd hd) (fun c hc => ?_) nofun
  obtain ⟨d, hd, hc⟩ := mem_filterMap.1 hc
  exact (traced_settle tells hm h d hd).advance ((rests_settle tells d hd).readsAt hc) hc

/-- If the callers are known, a branch stands nowhere else after a token, and after the end of
    the input only at the end of the first rule. -/
lemma traced_after (hm : la.Located m ms) (hne : m ≠ Rule.program.index)
    (hjs : Kind.endOfInput ∉ js) (h : ∀ c ∈ b.configs, c.Traced la m ms js) :
    ∀ c ∈ (b.after la .full k keep).configs, c.Traced la m ms (js ++ [k]) ∧
      (k = .endOfInput → c.node = Rule.program.index ∧ c.returns = .empty) := by
  -- No configuration has come to rest before.
  have hkept : ((b.settle la .full (some k)).finals la).configs = [] := by
    refine filter_eq_nil_iff.2 fun c hc hfinal => ?_
    exact hjs ((Config.eq_of_isFinal tells hm (traced_settle tells hm h c hc)
      (rests_settle tells c hc) hfinal).2.2 hne)
  have hmoved : ∀ c ∈ (if k = .endOfInput then
      (((b.settle la .full (some k)).advance la .full).settle la .full (some k)).finals la
      else (b.settle la .full (some k)).advance la .full).configs,
      c.Traced la m ms (js ++ [k]) ∧
        (k = .endOfInput → c.node = Rule.program.index ∧ c.returns = .empty) := by
    intro c hc
    have hadv := traced_advance (k := k) tells hm h
    split at hc
    · obtain ⟨hc, hfinal⟩ := mem_filter.1 hc
      have htr := traced_settle tells hm hadv c hc
      obtain ⟨hnd, hemp, -⟩ := Config.eq_of_isFinal tells hm htr
        (rests_settle tells c hc) hfinal
      exact ⟨htr, fun _ => ⟨hnd, hemp⟩⟩
    · rename_i hk
      exact ⟨hadv c hc, fun h => absurd h hk⟩
  unfold after
  dsimp only
  split
  · rw [hkept]
    exact hmoved
  · exact hmoved

end Backward

end Branch

namespace Prediction

section Step

variable {la : Lookahead} {scope : Scope} {k : Kind} {ks : List Kind} {bs : List Branch}

/-- Whether branches stay where they rest. -/
def keeps (la : Lookahead) (scope : Scope) (k : Kind) (bs : List Branch) : Bool :=
  match scope with
  | .full => bs.all fun b =>
    ((((b.settle la scope (some k)).advance la scope).settle la scope (some k)).finals
      la).configs.isEmpty
  | .local => k == .endOfInput

lemma step_eq : step la scope k bs =
    alive (bs.map (Branch.after la scope k (keeps la scope k bs))) := by
  let settled := bs.map (Branch.settle la scope (some k))
  let moved := settled.map (Branch.advance la scope)
  let ended := moved.map fun b => (b.settle la scope (some k)).finals la
  -- All lists come from the same branches, in the same order.
  have hkeep : ∀ keep : Bool, (if keep then
        (if k = .endOfInput then ended else moved).zipWith
          (fun m s => { m with configs := s.configs.foldl (fun cs c => c.add scope cs) m.configs })
          (settled.map (Branch.finals la))
      else if k = .endOfInput then ended else moved) = bs.map (Branch.after la scope k keep) := by
    intro keep
    unfold Branch.after
    cases keep <;> by_cases hk : k = .endOfInput <;>
      simp [hk, settled, moved, ended, zipWith_map, Function.comp_def]
  refine (congrArg alive (hkeep _)).trans ?_
  cases scope with
  | full => simp only [keeps, all_map, Function.comp_def]
  | «local» => rfl

lemma mem_step {b' : Branch} : b' ∈ step la scope k bs ↔
    (∃ b ∈ bs, b.after la scope k (keeps la scope k bs) = b') ∧ b'.configs ≠ [] := by
  rw [step_eq, alive, mem_filter, mem_map, Bool.not_eq_true', isEmpty_eq_false_iff]

lemma exists_live_step (tells : la.Tells) {b : Branch} (hb : b ∈ bs)
    (h : Config.Live la scope b.configs (k :: ks)) :
    (∃ b' ∈ step la scope k bs, b'.alt = b.alt ∧ Config.Live la scope b'.configs ks) ∧
      (k = .endOfInput ↔ ks = []) := by
  obtain ⟨hlive, hend⟩ := Branch.live_after tells (keeps la scope k bs) h
  refine ⟨⟨_, mem_step.2 ⟨⟨b, hb, rfl⟩, ?_⟩, Branch.alt_after, hlive⟩, hend⟩
  obtain ⟨_, _, ⟨c, hc, -⟩, -⟩ := hlive
  exact ne_nil_of_mem hc

end Step

/-- A prediction that is a branch from which the tokens can be read. -/
def Right (la : Lookahead) (branches ms : List Nat) (ks : List Kind) (p : Prediction) : Prop :=
  ∃ i b, p = .alt i ∧ branches[i - 1]? = some b ∧ la.Accepts b ms ks

section Stages

variable {la : Lookahead} (tells : la.Tells) {branches ms : List Nat} {bs : List Branch}
  {ks js : List Kind}

include tells

lemma accepts_of_isSettledByFirst {b : Branch} {m : Nat} (hm : la.Located m ms)
    (htr : ∀ c ∈ b.configs, c.Traced la m ms js) (hset : isSettledByFirst la (b :: bs) = true)
    (hlive : ∃ b' ∈ b :: bs, Config.Live la .full b'.configs ks) : la.Accepts m ms (js ++ ks) := by
  obtain ⟨b', hb', hlive⟩ := hlive
  obtain ⟨n, rs, ⟨c, hc, rfl, hcov⟩, hacc⟩ := Branch.exists_settled tells hlive
  have hhas := Stacks.covers_false.1 hcov
  obtain ⟨d, hd, hnd, hret⟩ : ∃ d ∈ (b.settle la .full none).configs, d.node = c.node ∧
      d.returns = c.returns := by
    rcases mem_cons.1 hb' with rfl | hb'
    · exact ⟨c, hc, rfl, rfl⟩
    · unfold isSettledByFirst at hset
      rw [map_cons] at hset
      have hall := all_eq_true.1 (all_eq_true.1 hset _ (mem_map_of_mem hb')) c hc
      obtain ⟨d, hd, heq⟩ := any_eq_true.1 hall
      rw [Bool.and_eq_true, beq_iff_eq, beq_iff_eq] at heq
      exact ⟨d, hd, heq⟩
  have hrun := Branch.traced_settle tells hm htr d hd rs (hret ▸ hhas)
  exact (hnd ▸ hrun).accepts hacc

lemma right_readFull (hbrs : ∀ b ∈ branches, la.Located b ms ∧ b ≠ Rule.program.index)
    (ts : List Token) (n : Nat) (hjs : Kind.endOfInput ∉ js) (hts : ts ≠ [])
    (htr : ∀ b ∈ bs, ∃ m, branches[b.alt - 1]? = some m ∧ ∀ c ∈ b.configs, c.Traced la m ms js)
    (hlive : ∃ b ∈ bs, Config.Live la .full b.configs (ts.map Token.kind)) :
    Right la branches ms (js ++ ts.map Token.kind) (readFull la n bs ts) := by
  induction ts generalizing n bs js with
  | nil => exact absurd rfl hts
  | cons t ts ih =>
    obtain ⟨b, hb, hlive⟩ := hlive
    obtain ⟨⟨b', hb', halt, hlive'⟩, hend⟩ := exists_live_step tells hb hlive
    have hassoc : js ++ (t :: ts).map Token.kind = (js ++ [t.kind]) ++ ts.map Token.kind := by
      rw [map_cons, append_assoc, singleton_append]
    -- All branches that are left stand where a run leads.
    have hsp : ∀ b ∈ step la .full t.kind bs, ∃ m, branches[b.alt - 1]? = some m ∧
        ∀ c ∈ b.configs, c.Traced la m ms (js ++ [t.kind]) ∧
          (t.kind = .endOfInput → c.node = Rule.program.index ∧ c.returns = .empty) := by
      intro b hb
      obtain ⟨⟨b, hmem, rfl⟩, -⟩ := mem_step.1 hb
      obtain ⟨m, hm, htr⟩ := htr b hmem
      obtain ⟨hloc, hne⟩ := hbrs m (mem_of_getElem? hm)
      rw [Branch.alt_after]
      exact ⟨m, hm, Branch.traced_after tells hloc hne hjs htr⟩
    -- So a branch that can read the rest can read all.
    have hacce : ∀ b ∈ step la .full t.kind bs, ∀ m, branches[b.alt - 1]? = some m →
        Config.Live la .full b.configs (ts.map Token.kind) →
        la.Accepts m ms (js ++ (t :: ts).map Token.kind) := by
      rintro b hb m hm ⟨n, rs, ⟨c, hc, rfl, hcov⟩, -, hacc⟩
      obtain ⟨m', hm', htr⟩ := hsp b hb
      cases Option.some.inj (hm.symm.trans hm')
      rw [hassoc]
      exact ((htr c hc).1 rs (Stacks.covers_false.1 hcov)).accepts hacc
    rw [readFull]
    split
    · rename_i hno
      rw [hno] at hb'
      cases hb'
    · rename_i b1 hone
      rw [hone] at hb'
      cases mem_singleton.1 hb'
      have hmem : b' ∈ step la .full t.kind bs := hone ▸ mem_singleton_self b'
      obtain ⟨m, hm, -⟩ := hsp b' hmem
      exact ⟨b'.alt, m, rfl, hm, hacce b' hmem m hm hlive'⟩
    · rename_i b1 bs' _ hso
      have hmem : b1 ∈ step la .full t.kind bs := hso ▸ mem_cons_self
      obtain ⟨m, hm, htr⟩ := hsp b1 hmem
      by_cases hkd : t.kind = .endOfInput
      · -- What is left has come to the end of the first rule.
        obtain ⟨c, hc⟩ := exists_mem_of_ne_nil _ (mem_step.1 hmem).2
        obtain ⟨hrun, hat⟩ := htr c hc
        obtain ⟨hnd, hemp⟩ := hat hkd
        rw [if_pos (by rw [hkd]; rfl), hassoc, hend.1 hkd, append_nil]
        refine ⟨b1.alt, m, rfl, hm, ?_⟩
        have hdn : la.Accepts c.node [] [] :=
          hnd ▸ (accepts_stop (tells.holds .program).stop).2 rfl
        have hacc := (hrun [] (hemp ▸ .empty)).accepts hdn
        rwa [append_nil] at hacc
      · rw [beq_false_of_ne hkd, Bool.false_or, hassoc]
        split
        · rename_i hset
          exact ⟨b1.alt, m, rfl, hm, accepts_of_isSettledByFirst tells
            (hbrs m (mem_of_getElem? hm)).1 (fun c hc => (htr c hc).1) hset
            ⟨b', hso ▸ hb', hlive'⟩⟩
        · refine ih (n + 1) ?_ ?_ ?_ ⟨b', hso ▸ hb', hlive'⟩
          · simpa [hjs] using Ne.symm hkd
          · exact fun hnil => hkd (hend.2 (by rw [hnil]; rfl))
          · intro b hb
            obtain ⟨m, hm, htr⟩ := hsp b (hso ▸ hb)
            exact ⟨m, hm, fun c hc => (htr c hc).1⟩

lemma right_readLocal {full : Unit → Prediction} (hfull : Right la branches ms js (full ()))
    (ts : List Token) (n : Nat) (hts : ts ≠ [])
    (hlive : ∃ b ∈ bs, Config.Live la .local b.configs (ts.map Token.kind) ∧
      Right la branches ms js (.alt b.alt)) :
    Right la branches ms js (readLocal la full n bs ts) := by
  induction ts generalizing n bs with
  | nil => exact absurd rfl hts
  | cons t ts ih =>
    obtain ⟨b, hb, hlive, hright⟩ := hlive
    obtain ⟨⟨b', hb', halt, hlive'⟩, hend⟩ := exists_live_step tells hb hlive
    rw [← halt] at hright
    rw [readLocal]
    split
    · rename_i hno
      rw [hno] at hb'
      cases hb'
    · rename_i b1 hone
      rw [hone] at hb'
      cases mem_singleton.1 hb'
      exact hright
    · split
      · exact hfull
      · rename_i hmore
        refine ih (n + 1) (fun hnil => hmore ?_) ⟨b', hb', hlive', hright⟩
        rw [hend.2 (by rw [hnil]; rfl)]
        rfl

end Stages

lemma mem_start {branches : List Nat} {returns : Stacks} {b : Branch} : b ∈ start branches returns ↔
      ∃ i n, branches[i]? = some n ∧ b = ⟨i + 1, [⟨n, returns, false⟩]⟩ := by
  unfold start
  rw [mem_map]
  constructor
  · rintro ⟨⟨n, i⟩, hmem, rfl⟩
    exact ⟨i, n, (mem_zipIdx_iff_getElem?.1 hmem), rfl⟩
  · rintro ⟨i, n, hget, rfl⟩
    exact ⟨(n, i), mem_zipIdx_iff_getElem?.2 hget, rfl⟩

end Prediction

/-- A prediction chooses a branch from which all tokens ahead can be read, if there is one. -/
lemma right_predict {la : Lookahead} (tells : la.Tells) {branches returns : List Nat}
    (hbrs : ∀ b ∈ branches, la.Located b returns ∧ b ≠ Rule.program.index)
    {ts : List Token} (h : ∃ b ∈ branches, la.Accepts b returns (ts.map Token.kind)) :
    Prediction.Right la branches returns (ts.map Token.kind) (predict la branches returns ts) := by
  obtain ⟨m, hmem, hacc⟩ := h
  obtain ⟨hloc, hne⟩ := hbrs m hmem
  obtain ⟨i, hget⟩ := mem_iff_getElem?.1 hmem
  have hts : ts ≠ [] := by
    rintro rfl
    exact hne (hloc.accepts_nil tells.holds hacc).1
  refine Prediction.right_readLocal tells ?_ ts 0 hts ?_
  · have hfull := @Prediction.right_readFull la tells branches returns
      (Prediction.start branches (.ofList returns)) [] hbrs ts 0 nofun hts ?_ ?_
    · exact hfull
    · intro b hb
      obtain ⟨i, n, hget, rfl⟩ := Prediction.mem_start.1 hb
      refine ⟨n, hget, fun c hc => ?_⟩
      cases mem_singleton.1 hc
      intro s hs
      rw [Stacks.has_ofList.1 hs]
      exact .refl _ _
    · exact ⟨_, Prediction.mem_start.2 ⟨i, m, hget, rfl⟩, m, returns,
        ⟨_, .head _, rfl, (Stacks.has_ofList.2 rfl).covers⟩, hloc, hacc⟩
  · exact ⟨_, Prediction.mem_start.2 ⟨i, m, hget, rfl⟩, ⟨m, returns,
      ⟨_, .head _, rfl, [], returns, Stacks.has_empty.2 rfl, rfl, nofun⟩,
      hloc, hacc⟩, _, m, rfl, hget, hacc⟩

end Compiscript
