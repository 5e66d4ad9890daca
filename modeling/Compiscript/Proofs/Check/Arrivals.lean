import Compiscript.Proofs.Check.Positions

/-!
# All Parts that Are Looked at Are Accepted

If a statement is checked without a complaint, so are its parts, each in the state that the
steps before it lead to. There is one lemma per kind of statement; each takes the check of the
statement apart into its steps, and gives to every position the steps that belong to it.
-/

namespace Compiscript.Check

open List Compiscript.Tree

variable {s s' : Checker} {t : Tree}

section Construct

variable {type : Ty} (hs' : s'.errors = [])

include hs'

lemma arrives_program (h : Derived .program t) (hrun : Gives (program t (check ·.tree)) s type s') :
    ∀ p ∈ positionsOf t .program, Arrives t s p := by
  obtain ⟨_, s1, hloop, hret⟩ := hrun.of_bind
  cases hret
  have hgo : Goes (fun k : t.Sub => look k.tree) s (t.kids .statement) s' :=
    .of_forIn (by simpa only [look, bind_assoc, pure_bind] using hloop)
  exact arrives_plain h ⟨by decide, rfl, rfl⟩ hgo.kids hs' fun _ => of_mem_partsOf

variable {ks : List t.Sub} {u : Unit} {r : Rule} {p : Pos}

lemma goes_statements {dead : Bool} (hrun : Gives (statements t (check ·.tree) dead ks) s u s') :
    Goes (fun k : t.Sub => look k.tree) s ks s' := by
  induction ks generalizing s dead with
  | nil =>
    cases hrun
    exact .nil _
  | cons k ks ih =>
    obtain ⟨_, s1, hreq, hrun⟩ := hrun.of_bind
    obtain ⟨type, s2, hvis, hrun⟩ := hrun.of_bind
    have hgo := ih hrun
    have hs2 := hgo.errors_eq_nil (fun k _ => grows_look k.tree) hs'
    obtain ⟨-, rfl⟩ := hreq.of_require ((grows_check k.tree).errors_eq_nil hvis hs2)
    exact .cons (gives_look_iff.2 ⟨type, hvis⟩) hgo

lemma arrives_block (h : Derived .block t) (hrun : Gives (block t (check ·.tree)) s type s') :
    ∀ p ∈ positionsOf t .block, Arrives t s p := by
  obtain ⟨_, s1, hpush, hrun⟩ := hrun.of_bind
  obtain ⟨_, s2, hsta, hrun⟩ := hrun.of_bind
  obtain ⟨_, s3, hpop, hret⟩ := hrun.of_bind
  cases hret
  cases hpop.of_modify
  refine arrives_inTurn h hpush (goes_statements (by exact hs') hsta).kids hs'
    (fun c hc => .of_mem (of_mem_partsOf hc)) fun c _ => ?_
  cases hpush.of_modify
  exact surrounds_of_eq h nofun rfl rfl rfl

omit hs' in
lemma goes_foldlM {found : Ty}
    (hrun : Gives (ks.foldlM (fun found c => do
      let type ← check c.tree
      return if type = .unknown then found else type) found) s type s') :
    Goes (fun k : t.Sub => look k.tree) s ks s' := by
  induction ks generalizing s found with
  | nil =>
    cases hrun
    exact .nil _
  | cons k ks ih =>
    rw [foldlM_cons, bind_assoc] at hrun
    obtain ⟨type, s1, hvis, hrun⟩ := hrun.of_bind
    exact .cons (gives_look_iff.2 ⟨type, hvis⟩) (ih hrun)

lemma arrives_children (h : Derived r t)
    (hr : r ≠ .functionDeclaration ∧ r.isLoop = false ∧ r.opensScope = false)
    (hrun : Gives (visitAll fun k : t.Sub => check k.tree) s type s') :
    ∀ p ∈ inTurn [] (pure ()) t.children, Arrives t s p := by
  have hgo := (goes_foldlM hrun).map
  rw [subs_map_tree] at hgo
  exact arrives_plain h hr hgo hs' fun _ => id

lemma arrives_evaluate (h : Derived r t)
    (hr : r ≠ .functionDeclaration ∧ r.isLoop = false ∧ r.opensScope = false)
    (hone : ∀ e ∈ production r, Item.mostIn .expression e.body ≤ 1)
    (hrun : Gives (evaluate t (check ·.tree)) s type s') :
    ∀ p ∈ inTurn [] (pure ()) (t.partsOf .expression), Arrives t s p := by
  obtain ⟨_, s1, hvis, hret⟩ := hrun.of_bind
  cases hret
  exact arrives_plain h hr (goes_kid h hone hvis) hs' fun _ => of_mem_partsOf

lemma Gives.of_compare {a b : Ty} {c : Complaint} (h : Gives (do
    require (← accept a b) p c) s u s') :
    a.accepts? b = some true ∧ s' = s := by
  obtain ⟨holds, hacc, hreq⟩ := Gives.of_need h
  obtain ⟨rfl, rfl⟩ := hreq.of_require hs'
  exact ⟨hacc, rfl⟩

lemma arrives_constant (h : Derived .constantDeclaration t)
    (hrun : Gives (declareConstant t (check ·.tree)) s type s') :
    ∀ p ∈ positionsOf t .constantDeclaration, Arrives t s p := by
  rw [declareConstant_eq] at hrun
  obtain ⟨x, -, hrun⟩ := hrun.of_need
  obtain ⟨found, s1, hval, hrun⟩ := hrun.of_bind
  have hs1 : s1.errors = [] := by
    have hdef : Grows (do
        define t.pos (.ofVariable x (t.markedType?.getD found) true true)
        return Ty.unknown : Check Ty) := grows_steps.bind (grows_passing.define _ _) fun _ =>
          grows_steps.pure _
    split at hrun
    · rename_i T _
      have hreq : ∀ holds, Grows (require holds t.pos (.constantMismatch x T found)) :=
        fun holds => grows_steps.require holds _ rfl
      have hrest := grows_steps.bind (grows_steps.accept T found) fun holds =>
        grows_steps.bind (hreq holds) fun _ => hdef
      exact hrest.errors_eq_nil hrun hs'
    · exact hdef.errors_eq_nil hrun hs'
  exact arrives_plain h ⟨by decide, rfl, rfl⟩ (goes_valueOf h (by decide) hval) hs1
    fun _ => of_mem_partsOf

/-- What an assignment to a variable asks for. The value changes nothing. -/
lemma assigns_variable (h : Derived .assignment t) {x : String} {e : t.Sub}
    (hx : t.tokenText? .identifier = some x) (he : t.kids .expression = [e])
    (hrun : Gives (assignVariable t (check ·.tree)) s type s') :
    ∃ sym found, s.scopes.resolve? x = some sym ∧ sym.isConst = false ∧
      Silent (check e.tree) s found ∧ sym.type.accepts? found = some true ∧ s.errors = [] := by
  have hvalueOf : valueOf t (check ·.tree) = check e.tree := by
    rw [valueOf, kid?, he]
    rfl
  rw [assignVariable_eq hx, hvalueOf] at hrun
  replace hrun := Gives.of_get hrun
  cases hsym : s.scopes.resolve? x with
  | none =>
    rw [hsym] at hrun
    obtain ⟨_, s1, hcom, hret⟩ := hrun.of_bind
    cases hret
    exact absurd hs' hcom.errors_ne_nil
  | some sym =>
    rw [hsym] at hrun
    obtain ⟨_, s1, hreq, hrun⟩ := hrun.of_bind
    obtain ⟨found, s2, hval, hrun⟩ := hrun.of_bind
    rw [← bind_assoc] at hrun
    obtain ⟨_, s3, hcmp, hrun⟩ := hrun.of_bind
    obtain ⟨_, s4, hmk, hret⟩ := hrun.of_bind
    cases hret
    cases hmk.of_modify
    obtain ⟨hacc, rfl⟩ := hcmp.of_compare (by exact hs')
    obtain ⟨hmem, hof⟩ := of_mem_kids (he ▸ mem_singleton_self e)
    cases eq_of_onlyComplains (complains_expression h (.of_mem hmem) hof) hval hs'
    obtain ⟨hconst, rfl⟩ := hreq.of_require hs'
    exact ⟨sym, found, rfl, by simpa using hconst, hval, hacc, hs'⟩

lemma arrives_assignment (h : Derived .assignment t)
    (hrun : Gives (assignment t (check ·.tree)) s type s') :
    ∀ p ∈ positionsOf t .assignment, Arrives t s p := by
  have harr : ∀ {s1}, Goes look s (t.partsOf .expression) s1 → s1.errors = [] →
      ∀ p ∈ positionsOf t .assignment, Arrives t s p := fun hgo hs1 =>
    arrives_plain h ⟨by decide, rfl, rfl⟩ hgo hs1 fun _ => of_mem_partsOf
  obtain ⟨x, hx, ⟨e, hks, heq⟩ | ⟨a, b, hks, heq⟩⟩ := assignment_cases h <;> rw [heq] at hrun
  · obtain ⟨sym, found, -, -, hval, -, hs⟩ := assigns_variable hs' h hx hks hrun
    refine harr ?_ hs
    rw [partsOf, ← kids_map_tree, hks]
    exact .one hval
  · rw [assignProperty_eq hx hks] at hrun
    obtain ⟨object, s1, ha, hrun⟩ := hrun.of_bind
    obtain ⟨found, s2, hb, hrun⟩ := hrun.of_bind
    obtain ⟨_, s3, hfld, hret⟩ := hrun.of_bind
    cases hret
    refine harr ?_ ((grows_steps.assignField _ _ _ _).errors_eq_nil hfld hs')
    rw [partsOf, ← kids_map_tree, hks]
    exact .cons (gives_look_iff.2 ⟨object, ha⟩) (.one hb)

lemma arrives_return (h : Derived .returnStatement t)
    (hrun : Gives (returnStatement t (check ·.tree)) s type s') :
    ∀ p ∈ positionsOf t .returnStatement, Arrives t s p := by
  rw [returnStatement_eq] at hrun
  replace hrun := Gives.of_get hrun
  split at hrun
  · obtain ⟨_, s1, hcom, hret⟩ := hrun.of_bind
    cases hret
    exact absurd hs' hcom.errors_ne_nil
  · obtain ⟨found, s1, hval, hrun⟩ := hrun.of_bind
    rw [← bind_assoc] at hrun
    obtain ⟨_, s2, hcmp, hret⟩ := hrun.of_bind
    cases hret
    obtain ⟨-, rfl⟩ := hcmp.of_compare hs'
    exact arrives_plain h ⟨by decide, rfl, rfl⟩ (goes_valueOf h (by decide) hval) hs'
      fun _ => of_mem_partsOf

omit hs' in
lemma arrives_bodies (h : Derived r t) (hr : r ≠ .functionDeclaration)
    {before : Check Unit} {s0 : Checker} (hbef : Gives before s () s0)
    (hfun : s0.function = s.function)
    (hdepth : s0.loopDepth = s.loopDepth + if r.isLoop then 1 else 0)
    (hscs : s0.scopes.inner.length = s.scopes.inner.length + if r.opensScope then 1 else 0)
    {cs : List Tree} (hgo : Goes look s0 cs s') (hs' : s'.errors = [])
    (hcs : ∀ c ∈ cs, c ∈ t.children) : ∀ p ∈ inTurn [] before cs, Arrives t s p :=
  arrives_inTurn h hbef hgo hs' (fun c hc => .of_mem (hcs c hc)) fun _ _ =>
    surrounds_of_eq h hr hfun hdepth hscs

omit hs' in
lemma isExpression_of_mem_partsOf {c : Tree} (hc : c ∈ t.partsOf .expression) :
    c.Within t ∧ c.isOf .expression = true :=
  ⟨.of_mem (of_mem_partsOf hc), (mem_filter.1 hc).2⟩

lemma arrives_if (h : Derived .ifStatement t)
    (hrun : Gives (ifStatement t (check ·.tree)) s type s') :
    ∀ p ∈ positionsOf t .ifStatement, Arrives t s p := by
  obtain ⟨_, s1, hcond, hrun⟩ := hrun.of_bind
  obtain ⟨T, s2, hfst, hrun⟩ := hrun.of_bind
  obtain ⟨b, hb, hfst⟩ := hfst.of_need
  have hblo : Goes look s1 (t.partsOf .block) s' := by
    rw [partsOf, ← kids_map_tree]
    rw [kidAt?] at hb
    have hle := h.length_kids_le (q := .block) (n := 2) (by decide) (by decide)
    rw [kidAt?] at hrun
    rcases hks : t.kids .block with _ | ⟨c, _ | ⟨d, _ | ⟨_, _⟩⟩⟩ <;> rw [hks] at hb hrun hle
    · cases hb
    · cases hb
      cases hrun
      exact .one hfst
    · cases hb
      obtain ⟨T', s3, hsnd, hret⟩ := hrun.of_bind
      cases hret
      exact .cons (gives_look_iff.2 ⟨T, hfst⟩) (.one hsnd)
    · simp at hle
  have hs1 := hblo.errors_eq_nil (fun c _ => grows_look c) hs'
  obtain ⟨rfl, hex⟩ := goes_conditionKid h (by decide) hcond hs1
  refine arrives_plain h ⟨by decide, rfl, rfl⟩ (hex.append hblo) hs' fun c hc => ?_
  exact (mem_append.1 hc).elim of_mem_partsOf of_mem_partsOf

omit hs' in
lemma gives_enterLoop (s : Checker) :
    Gives enterLoop s () { s with loopDepth := s.loopDepth + 1 } := rfl

lemma arrives_while (h : Derived .whileStatement t)
    (hrun : Gives (whileStatement t (check ·.tree)) s type s') :
    ∀ p ∈ positionsOf t .whileStatement, Arrives t s p := by
  obtain ⟨_, s1, hcond, hrun⟩ := hrun.of_bind
  obtain ⟨_, s2, hbd, hret⟩ := hrun.of_bind
  cases hret
  have hs1 := (grows_invariant.loopBody fun c _ => grows_check c.tree).errors_eq_nil hbd hs'
  obtain ⟨rfl, hex⟩ := goes_conditionKid h (by decide) hcond hs1
  obtain ⟨s3, hblk, hs3⟩ := goes_loopBody h (by decide) hbd
  intro p hp
  rcases mem_append.1 hp with hp | hp
  · exact arrives_expressions h (by decide) (forall_mem_nil _) rfl rfl hex hs1
      (fun _ => isExpression_of_mem_partsOf) p hp
  · exact arrives_bodies h nofun (gives_enterLoop _) rfl rfl rfl hblk (hs3.trans hs')
      (fun _ => of_mem_partsOf) p hp

lemma arrives_doWhile (h : Derived .doWhileStatement t)
    (hrun : Gives (doWhileStatement t (check ·.tree)) s type s') :
    ∀ p ∈ positionsOf t .doWhileStatement, Arrives t s p := by
  obtain ⟨_, s1, hbd, hrun⟩ := hrun.of_bind
  obtain ⟨_, s2, hcond, hret⟩ := hrun.of_bind
  cases hret
  obtain ⟨rfl, hex⟩ := goes_conditionKid h (by decide) hcond hs'
  obtain ⟨s3, hblk, hs3⟩ := goes_loopBody h (by decide) hbd
  have hsm : s.SameContext s' := restores_invariant.loopBody
    (fun c hc => restores_of_derives h hc) s () s' hbd
  intro p hp
  rcases mem_append.1 hp with hp | hp
  · exact arrives_bodies h nofun (gives_enterLoop _) rfl rfl rfl hblk (hs3.trans hs')
      (fun _ => of_mem_partsOf) p hp
  · exact arrives_expressions h (by decide) (forall_mem_nil _) hbd hsm.function hex hs'
      (fun _ => isExpression_of_mem_partsOf) p hp

lemma goes_forHeader (h : Derived .forStatement t)
    (hrun : Gives (forHeader t (check ·.tree)) s u s') :
    Goes look s (t.partsOf .expression) s' := by
  rw [partsOf, ← kids_map_tree]
  unfold forHeader at hrun
  have hle := h.length_kids_le (q := .expression) (n := 2) (by decide) (by decide)
  rcases hks : t.kids .expression with _ | ⟨e, _ | ⟨d, _ | ⟨_, _⟩⟩⟩ <;> rw [hks] at hrun hle
  · cases hrun
    exact .nil _
  · obtain ⟨_, s1, hcond, hret⟩ := hrun.of_bind
    cases hret
    obtain ⟨rfl, hgo⟩ := goes_condition h (by simp [hks]) hcond hs'
    exact hgo
  · obtain ⟨_, s1, hcond, hrun⟩ := hrun.of_bind
    obtain ⟨T, s2, hupd, hret⟩ := hrun.of_bind
    cases hret
    have hs1 := (grows_check d.tree).errors_eq_nil hupd hs'
    obtain ⟨rfl, hgo⟩ := goes_condition h (by simp [hks]) hcond hs1
    exact hgo.append (.one hupd)
  · simp at hle

omit hs' in
lemma goes_forStart (hrun : Gives (forStart t (check ·.tree)) s u s') :
    Goes look s t.children[2]?.toList s' := by
  rw [← subs_map_tree, getElem?_map]
  unfold forStart at hrun
  split at hrun
  · rename_i k hk
    obtain ⟨T, s1, hvis, hret⟩ := hrun.of_bind
    cases hret
    rw [hk]
    exact .one hvis
  · rename_i hnn
    cases hrun
    rw [hnn]
    exact .nil _

lemma arrives_for (h : Derived .forStatement t)
    (hrun : Gives (forStatement t (check ·.tree)) s type s') :
    ∀ p ∈ positionsOf t .forStatement, Arrives t s p := by
  rw [forStatement_eq] at hrun
  obtain ⟨_, s1, hloop, hret⟩ := hrun.of_bind
  cases hret
  obtain ⟨_, s2, hent, hloop⟩ := hloop.of_bind
  obtain ⟨_, s3, hins, hlv⟩ := hloop.of_bind
  cases hent.of_modify
  cases hlv.of_modify
  obtain ⟨_, s4, hst, hins⟩ := hins.of_bind
  obtain ⟨_, s5, hhea, hbd⟩ := hins.of_bind
  obtain ⟨T, s6, hbd, hret⟩ := hbd.of_bind
  cases hret
  have hblk := goes_kid h (by decide) hbd
  have hs5 := hblk.errors_eq_nil (fun c _ => grows_look c) hs'
  have hgo := ((goes_forStart hst).append (goes_forHeader hs5 h hhea)).append hblk
  refine arrives_bodies h nofun (gives_enterLoop s) rfl rfl rfl hgo hs' fun c hc => ?_
  rw [append_assoc, mem_append, mem_append] at hc
  rcases hc with hc | hc | hc
  · exact mem_of_getElem? (Option.mem_toList.1 hc)
  · exact of_mem_partsOf hc
  · exact of_mem_partsOf hc

lemma foreachHead_cases (h : Derived .foreachStatement t)
    (hrun : Gives (foreachHead t (check ·.tree)) s u s') :
    s'.function = s.function ∧ OpensScope s s' ∧
      ∃ s1, Goes look s (t.partsOf .expression) s1 ∧ s1.errors = [] := by
  have hrest : ∀ {s1 elem} {u : Unit}, Gives (do
      pushScope
      define t.pos (.ofVariable (← tokenText t .identifier) elem false true)) s1 u s' →
      { s1 with scopes := s1.scopes.push }.SameContext s' ∧ s1.errors = [] := by
    intro s1 elem u hrun
    obtain ⟨_, s2, hpush, hrun⟩ := hrun.of_bind
    obtain ⟨x, -, hdef⟩ := hrun.of_need
    have hs2 := Grows.errors_eq_nil (grows_passing.define _ _) hdef hs'
    cases hpush.of_modify
    exact ⟨Restores.define _ _ _ _ _ hdef, hs2⟩
  obtain ⟨T, s1, hvis, hrun⟩ := hrun.of_bind
  have hgo := goes_kid h (by decide) hvis
  have hsm := restores_steps.visitKid (fun c hc => restores_of_derives h hc) _ _ _ _ hvis
  have hend : { s1 with scopes := s1.scopes.push }.SameContext s' ∧ s1.errors = [] := by
    split at hrun
    · exact hrest hrun
    · obtain ⟨_, s2, hcom, hrun⟩ := hrun.of_bind
      exact absurd (hrest hrun).2 hcom.errors_ne_nil
  refine ⟨hend.1.function.trans hsm.function, ⟨hend.1.loopDepth.trans hsm.loopDepth, ?_⟩,
    s1, hgo, hend.2⟩
  rw [hend.1.scopes.length_inner, ← hsm.scopes.length_inner]
  rfl

lemma arrives_foreach (h : Derived .foreachStatement t)
    (hrun : Gives (foreachStatement t (check ·.tree)) s type s') :
    ∀ p ∈ positionsOf t .foreachStatement, Arrives t s p := by
  rw [foreachStatement_eq] at hrun
  obtain ⟨_, s1, hhd, hrun⟩ := hrun.of_bind
  obtain ⟨_, s2, hbd, hrun⟩ := hrun.of_bind
  obtain ⟨_, s3, hpop, hret⟩ := hrun.of_bind
  cases hret
  cases hpop.of_modify
  have hs1 := (grows_invariant.loopBody fun c _ => grows_check c.tree).errors_eq_nil hbd hs'
  obtain ⟨hfun, hopens, s3, hex, hs3⟩ := foreachHead_cases hs1 h hhd
  obtain ⟨s4, hblk, hs4⟩ := goes_loopBody h (by decide) hbd
  have hbef : Gives (do foreachHead t (check ·.tree); enterLoop) s ()
      { s1 with loopDepth := s1.loopDepth + 1 } := hhd.bind (gives_enterLoop s1)
  intro p hp
  rcases mem_append.1 hp with hp | hp
  · exact arrives_expressions h (by decide) (forall_mem_nil _) rfl rfl hex hs3
      (fun _ => isExpression_of_mem_partsOf) p hp
  · exact arrives_bodies h nofun hbef hfun (congrArg (· + 1) hopens.1) hopens.2 hblk
      (hs4.trans hs') (fun _ => of_mem_partsOf) p hp

lemma arrives_variable (h : Derived .variableDeclaration t)
    (hrun : Gives (declareVariable t (check ·.tree)) s type s') :
    ∀ p ∈ positionsOf t .variableDeclaration, Arrives t s p := by
  intro p hp
  obtain ⟨i, hi, hp⟩ := mem_flatMap.1 hp
  obtain ⟨hmem, hof⟩ := mem_filter.1 hi
  obtain ⟨ki, hki, rfl, -⟩ := exists_of_mem_partsOf h (by decide) hi
  have hini : Derived .initializer ki.tree := h.of_isOf (.of_mem hmem) hof
  obtain ⟨e, he⟩ := hini.exists_kid? (q := .expression) (by decide)
  have hval : initialValue? t = some (ki.lift e) := by simp [initialValue?, hki, he]
  rw [declareVariable_eq, hval] at hrun
  obtain ⟨head, s1, hhd, hrun⟩ := hrun.of_bind
  obtain ⟨found, s2, hvis, hrun⟩ := hrun.of_bind
  rw [← bind_assoc] at hrun
  obtain ⟨_, s3, hcmp, hret⟩ := hrun.of_bind
  cases hret
  obtain ⟨-, rfl⟩ := hcmp.of_compare hs'
  have hgo : Goes look s1 (ki.tree.partsOf .expression) s' := by
    rw [partsOf, ← kids_map_tree, hini.kids_of_kid? (by decide) he]
    exact .one hvis
  refine arrives_expressions h (by decide) (forall_mem_singleton.2 ?_) hhd.discard
    (restores_invariant.variableHead (fun _ hk => restores_of_derives h hk)
      (fun _ => complains_expression h) _ _ _ hhd).function hgo hs' (fun c hc => ?_) p hp
  · rw [isOf_eq_beq hini]
    rfl
  · obtain ⟨hin, hex⟩ := isExpression_of_mem_partsOf hc
    exact ⟨hin.trans (.of_mem hmem), hex⟩

omit hs' in
lemma gives_bodyHead {f : Symbol} {params : List (String × Ty)} {outer : Option Symbol}
    (hrun : Gives (bodyHead p f params) s outer s') :
    s'.function = some f ∧ s'.loopDepth = s.loopDepth ∧
      s'.scopes.inner.length = s.scopes.inner.length := by
  obtain ⟨_, s1, hpars, hrun⟩ := hrun.of_bind
  obtain ⟨_, s2, hset, hret⟩ := hrun.of_get.of_bind
  cases hret
  have hsm := restores_steps.forIn (fun param _ _ =>
    restores_steps.bind (.define p (.ofParameter param.1 param.2)) fun _ =>
      restores_steps.pure (ForInStep.yield PUnit.unit)) _ _ _ hpars
  cases hset.of_modify
  exact ⟨rfl, hsm.loopDepth, hsm.scopes.length_inner⟩

lemma arrives_function (h : Derived .functionDeclaration t)
    (hrun : Gives (declareFunction t (check ·.tree)) s type s') :
    ∀ p ∈ positionsOf t .functionDeclaration, Arrives t s p := by
  rw [declareFunction_eq] at hrun
  obtain ⟨outer, s1, hhd, hrun⟩ := hrun.of_bind
  obtain ⟨_, s2, hbd, hrun⟩ := hrun.of_bind
  obtain ⟨_, s3, hback, hrun⟩ := hrun.of_bind
  obtain ⟨_, s4, hpop, hret⟩ := hrun.of_bind
  cases hret
  cases hback.of_modify
  cases hpop.of_modify
  have hins : s1.function.isSome = true ∧ OpensScope s s1 := by
    obtain ⟨x, -, hrun⟩ := hhd.of_need
    obtain ⟨params, s2, hpars, hrun⟩ := hrun.of_bind
    obtain ⟨_, s3, hdef, hrun⟩ := hrun.of_bind
    obtain ⟨_, s4, hpush, hbd⟩ := hrun.of_bind
    have hsm := (restores_steps.parameters _ _ _ _ hpars).trans
      (Restores.define _ _ _ _ _ hdef)
    obtain ⟨hfun, hdepth, hlen⟩ := gives_bodyHead hbd
    cases hpush.of_modify
    refine ⟨by rw [hfun]; rfl, hdepth.trans hsm.loopDepth, ?_⟩
    rw [hlen, ← hsm.scopes.length_inner]
    rfl
  refine arrives_inTurn h hhd.discard (goes_kid h (by decide) hbd) hs'
    (fun c hc => .of_mem (of_mem_partsOf hc)) fun c _ => ?_
  refine .of_function hins.1 hins.2 ⟨t, mem_singleton_self t, isOf_eq_beq h _⟩ ?_ ?_
  · simp [isOneOf_eq h, Rule.isLoop]
  · simp [isOneOf_eq h, Rule.opensScope]

omit hs' in
lemma declareMember_constant {visit : t.Sub → Check Ty} {m : t.Sub} {k : m.tree.Sub}
    (h : Derived .classMember m.tree)
    (hk : m.tree.kid? .constantDeclaration = some k) (hmk : k.tree.markedType? = none) (id : Nat)
    (className : String) : declareMember t visit id className m = (do
      let x ← tokenText k.tree .identifier
      let type ← visitPart visit ((k.tree.kid? .expression).map fun e => m.lift (k.lift e))
      addField k.tree.pos id className (.ofVariable x type.orNull true true)) := by
  have hvar : m.tree.kid? .variableDeclaration = none := kid?_eq_none_of_kid h hk nofun
  unfold declareMember
  rw [hvar, hk]
  dsimp only
  rw [hmk]
  simp only [pure_bind]

section Class

variable (h : Derived .classDeclaration t) {m : t.Sub} (hm : m ∈ t.kids .classMember)
  {c : String × Nat} {σ σ' : Checker} {before : Check (String × Nat)}
  (hbef : Gives before s c σ) (hsm : s.SameContext σ) (hσ' : σ'.errors = []) {p : Position}

include h hm hbef hsm hσ'

omit hs' in
lemma arrives_constantMember (hp : p ∈ constantPositions t before m)
    (hrun : Gives (declareMember t (check ·.tree) c.2 c.1 m) σ () σ') : Arrives t s p := by
  obtain ⟨hmem, hof⟩ := of_mem_kids hm
  have hmb : Derived .classMember m.tree := h.of_isOf (.of_mem hmem) hof
  obtain ⟨k, hk, hp⟩ := mem_flatMap.1 hp
  obtain ⟨hkmem, hkof⟩ := mem_filter.1 hk
  obtain ⟨k, hkid, rfl, -⟩ := exists_of_mem_partsOf hmb (by decide) hk
  have hcon : Derived .constantDeclaration k.tree :=
    hmb.of_isOf (.of_mem hkmem) hkof
  split at hp
  · rename_i hmk
    obtain ⟨e, he⟩ := hcon.exists_kid? (q := .expression) (by decide)
    rw [declareMember_constant hmb hkid (Option.isNone_iff_eq_none.1 hmk), he] at hrun
    obtain ⟨x, -, hrun⟩ := hrun.of_need
    obtain ⟨type, σ₁, hvis, hfld⟩ := hrun.of_bind
    have hσ₁ := (grows_invariant.addField _ _ _ _).errors_eq_nil hfld hσ'
    have hgo : Goes look σ (k.tree.partsOf .expression) σ₁ := by
      rw [partsOf, ← kids_map_tree, hcon.kids_of_kid? (by decide) he]
      exact .one hvis
    refine arrives_expressions h (by decide) (fun v hv => ?_) hbef.discard hsm.function hgo hσ₁
      (fun d hd => ?_) p hp
    · rcases mem_pair.1 hv with rfl | rfl
      · exact isOf_eq_beq hcon _
      · exact isOf_eq_beq hmb _
    · obtain ⟨hin, hex⟩ := isExpression_of_mem_partsOf hd
      exact ⟨hin.trans ((Within.of_mem hkmem).trans (.of_mem hmem)), hex⟩
  · cases hp

omit hs' in
lemma arrives_method (hp : p ∈ methodPositions t before m)
    (hrun : Gives (methodBody t (check ·.tree) c.2 c.1 m) σ () σ') : Arrives t s p := by
  obtain ⟨hmem, hof⟩ := of_mem_kids hm
  have hmb : Derived .classMember m.tree := h.of_isOf (.of_mem hmem) hof
  obtain ⟨f, hf, hp⟩ := mem_flatMap.1 hp
  obtain ⟨hfmem, hfof⟩ := mem_filter.1 hf
  obtain ⟨f, hkid, rfl, -⟩ := exists_of_mem_partsOf hmb (by decide) hf
  have hfun : Derived .functionDeclaration f.tree :=
    hmb.of_isOf (.of_mem hfmem) hfof
  obtain ⟨b, hb⟩ := hfun.exists_kid? (q := .block) (by decide)
  rw [methodBody_eq _ _ _ _ hkid, hb] at hrun
  obtain ⟨outer, σ₁, hhd, hrun⟩ := hrun.of_bind
  obtain ⟨type, σ₂, hvis, hrun⟩ := hrun.of_bind
  obtain ⟨_, σ₃, hback, hrun⟩ := hrun.of_bind
  obtain ⟨_, σ₄, hback', hpop⟩ := hrun.of_bind
  cases hback.of_modify
  cases hback'.of_modify
  cases hpop.of_modify
  have hins : σ₁.function.isSome = true ∧ OpensScope s σ₁ := by
    obtain ⟨x, -, hhd⟩ := hhd.of_need
    obtain ⟨_, σ₃, hpush, hhd⟩ := hhd.of_get.of_get.of_bind
    obtain ⟨_, σ₄, hset, hhd⟩ := hhd.of_bind
    obtain ⟨_, σ₅, hdef, hhd⟩ := hhd.of_bind
    obtain ⟨_, σ₆, hbd, hret⟩ := hhd.of_bind
    cases hret
    obtain ⟨hfun, hdepth, hlen⟩ := gives_bodyHead hbd
    have hdefi := Restores.define _ _ _ _ _ hdef
    cases hset.of_modify
    cases hpush.of_modify
    refine ⟨by rw [hfun]; rfl, hdepth.trans (hdefi.loopDepth.trans hsm.loopDepth), ?_⟩
    rw [hlen, hdefi.scopes.length_inner, ← hsm.scopes.length_inner]
    rfl
  have hgo : Goes look σ₁ (f.tree.partsOf .block) σ₂ := by
    rw [partsOf, ← kids_map_tree, hfun.kids_of_kid? (by decide) hb]
    exact .one hvis
  refine arrives_inTurn h (hbef.bind hhd.discard) hgo hσ' (fun d hd => ?_) (fun d _ => ?_) p hp
  · exact (Within.of_mem (of_mem_partsOf hd)).trans ((Within.of_mem hfmem).trans (.of_mem hmem))
  · refine .of_function hins.1 hins.2 ⟨f.tree, by simp, hfof⟩ ?_ ?_
    · simp [isOneOf_eq h, isOneOf_eq hmb, isOneOf_eq hfun, Rule.isLoop]
    · simp [isOneOf_eq h, isOneOf_eq hmb, isOneOf_eq hfun, Rule.opensScope]

end Class

lemma arrives_class (h : Derived .classDeclaration t)
    (hrun : Gives (declareClass t (check ·.tree)) s type s') :
    ∀ p ∈ positionsOf t .classDeclaration, Arrives t s p := by
  rw [declareClass_eq] at hrun
  obtain ⟨c, s1, hhd, hrun⟩ := hrun.of_bind
  obtain ⟨_, s2, hmbs, hrun⟩ := hrun.of_bind
  obtain ⟨_, s3, hmeths, hret⟩ := hrun.of_bind
  cases hret
  have hhead' := restores_classHead t _ _ _ hhd
  have hgrows : ∀ k : t.Sub, k.tree.Within t → Grows (check k.tree) := fun k _ => grows_check k.tree
  have hres : ∀ k : t.Sub, k.tree.Within t → Restores (check k.tree) := fun k hk =>
    restores_of_derives h hk
  have hdec : Goes (fun m => declareMember t (check ·.tree) c.2 c.1 m) s1
      (t.kids .classMember) s2 := .of_forIn hmbs
  have hrs : Goes (fun m => methodBody t (check ·.tree) c.2 c.1 m) s2
      (t.kids .classMember) s' := .of_forIn hmeths
  have hin : ∀ m ∈ t.kids .classMember, m.tree.Within t := fun _ => .of_kids
  have hs2 := hrs.errors_eq_nil
    (fun m hm => grows_invariant.methodBody hgrows c.2 c.1 (hin m hm)) hs'
  intro p hp
  rcases mem_append.1 hp with hp | hp
  · obtain ⟨m, hm, before, σ, σ', hbef, hsm, hp, hsp, hσ'⟩ :=
      exists_of_mem_along hhd hdec hs2
        (fun m hm => grows_invariant.declareMember hgrows c.2 c.1 (hin m hm))
        (fun m hm => restores_invariant.declareMember hres c.2 c.1 (hin m hm)) hp
    exact arrives_constantMember h hm hbef (hhead'.trans hsm) hσ' hp hsp
  · have hmembers' : Gives (do
        let c ← classHead t
        for m in t.kids .classMember do declareMember t (check ·.tree) c.2 c.1 m
        return c) s c s2 := hhd.bind (hmbs.bind rfl)
    have hsame2 := hdec.sameContext fun m hm =>
      restores_invariant.declareMember hres c.2 c.1 (hin m hm)
    obtain ⟨m, hm, before, σ, σ', hbef, hsm, hp, hsp, hσ'⟩ :=
      exists_of_mem_along hmembers' hrs hs'
        (fun m hm => grows_invariant.methodBody hgrows c.2 c.1 (hin m hm))
        (fun m hm => restores_invariant.methodBody hres c.2 c.1 (hin m hm)) hp
    exact arrives_method h hm hbef ((hhead'.trans hsame2).trans hsm) hσ' hp hsp

/-- The value of a case, if it is one that has a value. -/
def caseValue (t : Tree) (visit : t.Sub → Check Ty) (type : Ty) (c : t.Sub) : Check Unit :=
  match c.tree.kid? .expression with
  | none => pure ()
  | some e => do
    let found ← visit (c.lift e)
    require (← accept type found) c.tree.pos (.caseMismatch type found)

omit hs' in
lemma switchStatement_eq (visit : t.Sub → Check Ty) : switchStatement t visit = (do
    let type ← visitPart visit (t.kid? .expression)
    require (type = .integer) t.pos (.switchNotInteger type)
    for c in t.kids .switchCase do caseValue t visit type c
    return .unknown) := by
  unfold switchStatement caseValue
  refine bind_congr fun type => bind_congr fun _ => ?_
  congr 2
  funext c _
  cases c.tree.kid? .expression <;> simp only [bind_assoc, pure_bind]

omit hs' in
lemma complains_caseValue (h : Derived .switchStatement t) (type : Ty) {c : t.Sub}
    (hc : c ∈ t.kids .switchCase) : OnlyComplains (caseValue t (check ·.tree) type c) := by
  unfold caseValue
  split
  · exact .pure _
  · rename_i e he
    obtain ⟨hmem, hof⟩ := of_kid? he
    have hin : e.tree.Within t := (Within.of_mem hmem).trans (.of_kids hc)
    exact .bind (complains_expression h hin hof) fun _ =>
      onlyComplains_compare _ _ _ rfl

lemma arrives_switch (h : Derived .switchStatement t)
    (hrun : Gives (switchStatement t (check ·.tree)) s type s') :
    ∀ p ∈ positionsOf t .switchStatement, Arrives t s p := by
  rw [switchStatement_eq] at hrun
  obtain ⟨T, s1, hvis, hrun⟩ := hrun.of_bind
  obtain ⟨_, s2, hreq, hrun⟩ := hrun.of_bind
  obtain ⟨_, s3, hcases, hret⟩ := hrun.of_bind
  cases hret
  have hgo : Goes (caseValue t (check ·.tree) T) s2 (t.kids .switchCase) s' :=
    .of_forIn hcases
  obtain ⟨rfl, hsil⟩ := hgo.silent (fun c hc => complains_caseValue h T hc) hs'
  obtain ⟨-, rfl⟩ := hreq.of_require hs'
  have hex := goes_kid h (by decide) hvis
  obtain ⟨e, he, hval⟩ := hvis.of_need
  obtain ⟨hmem, hof⟩ := of_kid? he
  obtain rfl := eq_of_onlyComplains (complains_expression h (.of_mem hmem) hof) hval hs'
  intro p hp
  rcases mem_append.1 hp with hp | hp
  · exact arrives_expressions h (by decide) (forall_mem_nil _) rfl rfl hex hs'
      (fun _ => isExpression_of_mem_partsOf) p hp
  · obtain ⟨c, hc, hp⟩ := mem_flatMap.1 hp
    obtain ⟨hmem, hof⟩ := mem_filter.1 hc
    rw [partsOf, ← kids_map_tree] at hc
    obtain ⟨c, hkid, rfl⟩ := mem_map.1 hc
    have hcase : Derived .switchCase c.tree := h.of_isOf (.of_mem hmem) hof
    obtain ⟨e, he⟩ := hcase.exists_kid? (q := .expression) (by decide)
    have hval := hsil c hkid
    rw [caseValue, he] at hval
    obtain ⟨found, s4, hval, hcmp⟩ := hval.of_bind
    obtain ⟨-, rfl⟩ := Gives.of_compare hs' hcmp
    have hgo : Goes look s' (c.tree.partsOf .expression) s' := by
      rw [partsOf, ← kids_map_tree, hcase.kids_of_kid? (by decide) he]
      exact .one hval
    refine arrives_expressions h (by decide) (forall_mem_singleton.2 (isOf_eq_beq hcase _)) rfl rfl
      hgo hs' (fun d hd => ?_) p hp
    obtain ⟨hin, hex⟩ := isExpression_of_mem_partsOf hd
    exact ⟨hin.trans (.of_mem hmem), hex⟩

end Construct

variable {r : Rule}

/-- An expression is accepted if its check is silent. -/
lemma accepted_expression_iff (h : Derived r t) (hr : r.isInExpression = true) :
    Accepted t s ↔ s.errors = [] ∧ ∃ type, Silent (check t) s type := by
  constructor
  · rintro ⟨hs, type, s', hrun, hs'⟩
    cases eq_of_onlyComplains (onlyComplains.check h hr (.refl t)) hrun hs'
    exact ⟨hs, type, hrun⟩
  · rintro ⟨hs, type, hrun⟩
    exact ⟨hs, type, s, hrun, hs⟩

lemma valueParts_within (r : Rule) :
    ∀ q ∈ valueParts t r, q.2.Within t ∧ q.2.isOneOf Rule.isInExpression = true ∧
      ∀ v ∈ q.1, v.isOf .functionDeclaration = false := by
  have hpl : ∀ cs : List Tree, (∀ c ∈ cs, c ∈ t.children ∧ c.isOneOf Rule.isInExpression = true) →
      ∀ q ∈ cs.map (([] : List Tree), ·), q.2.Within t ∧ q.2.isOneOf Rule.isInExpression = true ∧
        ∀ v ∈ q.1, v.isOf .functionDeclaration = false := by
    intro cs hcs q hmem
    obtain ⟨c, hc, rfl⟩ := mem_map.1 hmem
    exact ⟨.of_mem (hcs c hc).1, (hcs c hc).2, forall_mem_nil _⟩
  have hps : ∀ {q c t'}, q.isInExpression = true → c ∈ partsOf t' q →
      c ∈ t'.children ∧ c.isOneOf Rule.isInExpression = true := fun hq hc =>
    ⟨(mem_filter.1 hc).1, isOneOf_of_isOf (mem_filter.1 hc).2 hq⟩
  have hno : ∀ {q c t'}, c ∈ partsOf t' q → q ≠ .functionDeclaration →
      c.isOf .functionDeclaration = false := fun hc hne =>
    isOf_eq_false (mem_filter.1 hc).2 hne
  have hops := hpl t.operands fun c hc => mem_filter.1 hc
  cases r with
  | assignmentExpr =>
    refine hpl _ fun c hc => ?_
    exact (mem_append.1 hc).elim (hps rfl) (hps rfl)
  | leftHandSide =>
    intro q hmem
    rcases mem_append.1 hmem with hmem | hmem
    · exact hpl _ (fun c hc => hps rfl hc) q hmem
    · obtain ⟨op, hop, hmem⟩ := mem_flatMap.1 hmem
      have hopmem := Within.of_mem (hps rfl hop).1
      rcases mem_append.1 hmem with hmem | hmem
      · obtain ⟨c, hc, rfl⟩ := mem_map.1 hmem
        obtain ⟨hcmem, hof⟩ := hps rfl hc
        exact ⟨(Within.of_mem hcmem).trans hopmem, hof,
          forall_mem_singleton.2 (hno hop nofun)⟩
      · obtain ⟨a, ha, hmem⟩ := mem_flatMap.1 hmem
        obtain ⟨c, hc, rfl⟩ := mem_map.1 hmem
        obtain ⟨hcmem, hof⟩ := hps rfl hc
        have hamem := Within.of_mem (hps rfl ha).1
        exact ⟨(Within.of_mem hcmem).trans (hamem.trans hopmem), hof,
          forall_mem_cons.2 ⟨hno ha nofun, forall_mem_singleton.2 (hno hop nofun)⟩⟩
  | primaryAtom =>
    intro q hmem
    obtain ⟨a, ha, hmem⟩ := mem_flatMap.1 hmem
    obtain ⟨c, hc, rfl⟩ := mem_map.1 hmem
    obtain ⟨hcmem, hof⟩ := hps rfl hc
    exact ⟨(Within.of_mem hcmem).trans (.of_mem (hps rfl ha).1), hof,
      forall_mem_singleton.2 (hno ha nofun)⟩
  | suffixOp | arguments => exact fun q hmem => nomatch hmem
  | _ => exact hops

lemma arrives_value (h : Derived r t) (hr : r.isInExpression = true)
    (hs : Accepted t s) : ∀ p ∈ valuePositions t r, Arrives t s p := by
  obtain ⟨hs, type, hsil⟩ := (accepted_expression_iff h hr).1 hs
  intro p hp
  obtain ⟨q, hmem, rfl⟩ := mem_map.1 hp
  obtain ⟨hin, hex, hvia⟩ := valueParts_within r q hmem
  obtain ⟨T, hT⟩ := silent_of_mem_valueParts h hr hsil q hmem
  have hne : r ≠ .functionDeclaration := by
    rintro rfl
    cases hr
  exact ⟨s, rfl, ⟨hs, T, s, hT, hs⟩, surrounds_expression h hne hvia rfl hex⟩

/-- All parts of a tree that are looked at are accepted, if the tree is. -/
lemma arrives_of_mem (h : Derived r t) (hs : Accepted t s)
    {p : Position} (hp : p ∈ positions t) : Arrives t s p := by
  obtain ⟨-, type, s', hrun, hs'⟩ := id hs
  obtain ⟨e, pos, cs, he, hcs, rfl⟩ := id h
  have hof : p ∈ positionsOf (.node ⟨r, e.label⟩ pos cs) r := by simpa [positions, tag?] using hp
  rw [check_node] at hrun
  cases r with
  | program => exact arrives_program hs' h hrun p hof
  | block => exact arrives_block hs' h hrun p hof
  | variableDeclaration => exact arrives_variable hs' h hrun p hof
  | constantDeclaration => exact arrives_constant hs' h hrun p hof
  | assignment => exact arrives_assignment hs' h hrun p hof
  | expressionStatement | printStatement =>
    exact arrives_evaluate hs' h ⟨by decide, rfl, rfl⟩ (by decide) hrun p hof
  | ifStatement => exact arrives_if hs' h hrun p hof
  | whileStatement => exact arrives_while hs' h hrun p hof
  | doWhileStatement => exact arrives_doWhile hs' h hrun p hof
  | forStatement => exact arrives_for hs' h hrun p hof
  | foreachStatement => exact arrives_foreach hs' h hrun p hof
  | returnStatement => exact arrives_return hs' h hrun p hof
  | functionDeclaration => exact arrives_function hs' h hrun p hof
  | classDeclaration => exact arrives_class hs' h hrun p hof
  | switchStatement => exact arrives_switch hs' h hrun p hof
  | statement =>
    obtain ⟨q, -, rfl⟩ := mem_map.1 he
    exact arrives_children hs' h ⟨by decide, rfl, rfl⟩ hrun p hof
  | tryCatchStatement =>
    cases mem_singleton.1 he
    exact arrives_children hs' h ⟨by decide, rfl, rfl⟩ hrun p hof
  | breakStatement | continueStatement | typeMark | initializer | switchCase | defaultCase
  | parameters | parameter | classMember | typeExpr | baseType => cases hof
  | _ => exact arrives_value h rfl hs p hof

end Compiscript.Check
