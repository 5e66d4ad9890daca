import Compiscript.Proofs.Check.Members

/-!
# Complaints about Scopes

Which complaints about scopes a program gets. They can be read off its outline, without
any scopes being kept: an assignment is complained about if no declaration of the name
stands before it in its own scope or in one around it, and a declaration if one of the
same name stands before it in the same scope.

Nothing is said about programs with a `switch`, whose statements are not visited, and
about classes that have two methods of one name, where both bodies are read with the
parameters of the later one.

## Theorems

* `Checker.scope_errors_exact`: The complaints about scopes are those of the outline.
* `Checker.asked_names_declared`: Without complaints, what is asked for is declared.
-/

namespace Compiscript

/-- What happens to names in a program, in the order of the text. -/
def Tree.occurrences (t : Tree) : List Occurrence := occurrencesIn [] 0 t.outline

/-- No two methods of a class have one name. -/
def Tree.MethodsDiffer (t : Tree) : Prop :=
  t.isOf .classDeclaration = true → (t.children.flatMap Tree.nameOfMethod).Nodup

instance : DecidablePred Tree.MethodsDiffer := fun t =>
  inferInstanceAs (Decidable (t.isOf .classDeclaration = true →
    (t.children.flatMap Tree.nameOfMethod).Nodup))

/-- The complaints about scopes that a program should get: those about its faults, in the
    order of the text. -/
def Checker.scopeErrors (t : Tree) : List SemanticError :=
  (faults [] t.occurrences).filterMap Fault.error?

lemma fault?_eq_none {before os : List Occurrence} (h : faults before os = [])
    {first last : List Occurrence} {o : Occurrence} (hos : os = first ++ o :: last) :
    o.fault? (before ++ first) = none := by
  rw [hos, faults_append, List.append_eq_nil_iff, faults, List.append_eq_nil_iff] at h
  exact Option.toList_eq_nil_iff.1 h.2.1

namespace Check

open Checker (Traced)

lemma follows_jump (t : Tree) (j : Jump) : Follows [] (jump t j) :=
  .of_onlyComplains (onlyComplains.jump t (.complain _ rfl))

lemma follows_of_derives {r : Rule} {t : Tree} (h : Derived r t)
    (hr : r.isStatement = true) (hswitch : t.Everywhere fun c => c.isOf .switchStatement = false)
    (hmethods : t.Everywhere Tree.MethodsDiffer) : Follows t.outline (check t) := by
  have hv : Tracks t (check ·.tree) := {
    follows k hk q hq hof := follows_of_derives (h.of_isOf hk hof) hq (hswitch.sub hk)
      (hmethods.sub hk)
    token k tok htok := by
      rw [htok, check_eq]
      exact onlyComplains.ofText _
    complains k hk hof := onlyComplains.check (h.of_isOf hk hof) rfl (.refl _)
    declared k hk hof s asked := by
      rintro ⟨type, hs, hasked⟩ u hu
      have hder := h.of_isOf hk hof
      obtain ⟨c, hc, hu⟩ := Tree.mem_usesOf.1 hu
      rw [List.mem_singleton] at hc
      subst hc
      rcases hu with hu | ⟨htrue, hbare⟩
      · exact declared_of_uses hder rfl ⟨nofun, nofun⟩ hs u hu
      · exact fun hno => hasked htrue (unknown_of_bare hder rfl hbare hno hs) }
  have hlab : ∀ r ∈ Rule.all, r.isStatement = true → ∀ e ∈ production r, e.label = none := by
    decide
  obtain ⟨e, p, cs, he, hcs, rfl⟩ := id h
  rw [hlab r (Rule.mem_all r) hr e he] at h hv hswitch hmethods ⊢
  rw [check_node]
  cases r with
  | program => exact hv.follows_program h
  | block => exact hv.follows_block h
  | variableDeclaration => exact hv.follows_variable h
  | constantDeclaration => exact hv.follows_constant h
  | assignment => exact hv.follows_assignment h
  | expressionStatement => exact hv.follows_evaluate h (by decide) (by decide)
  | printStatement => exact hv.follows_evaluate h (by decide) (by decide)
  | ifStatement => exact hv.follows_if h
  | whileStatement => exact hv.follows_while h
  | doWhileStatement => exact hv.follows_doWhile h
  | forStatement => exact hv.follows_for h
  | foreachStatement => exact hv.follows_foreach h
  | returnStatement => exact hv.follows_return h
  | functionDeclaration => exact hv.follows_function h
  | classDeclaration => exact hv.follows_class h (hmethods.here rfl)
  | breakStatement => exact follows_jump _ .break
  | continueStatement => exact follows_jump _ .continue
  | statement | tryCatchStatement =>
    refine hv.follows_visitAll fun c hc => ?_
    rcases h.leaf_or_mentioned hc with hleaf | ⟨q, hof, a, ha, hment⟩
    · exact .inl hleaf
    · have ho : ∀ r ∈ [Rule.statement, .tryCatchStatement], ∀ e ∈ production r, ∀ q ∈ Rule.all,
          Item.mentionsIn q e.body = true → q.isStatement = true ∨ q = .switchStatement := by
        decide
      rcases ho _ (by simp) a ha q (Rule.mem_all q) hment with hq | rfl
      · exact .inr ⟨q, hq, hof⟩
      · rw [hswitch c (.of_mem hc)] at hof
        cases hof
  | _ => cases hr
termination_by sizeOf t
decreasing_by exact k.2

end Check

namespace Checker

lemma traced_of_run {source : String} (hparse : (parse source).errors = [])
    (hswitch : (parse source).tree.Everywhere fun t => t.isOf .switchStatement = false)
    (hmethods : (parse source).tree.Everywhere Tree.MethodsDiffer) {type : Ty} {s : Checker}
    (hrun : run (parse source).tree .start = (.ok type, s)) :
    s.errors.filter (·.complaint.isAboutScopes) = scopeErrors (parse source).tree ∧
      (s.errors = [] → faults [] (parse source).tree.occurrences = []) := by
  have htr := Check.follows_of_derives (derives_of_parse hparse) rfl hswitch hmethods _ _ _ hrun
  have hfau : (walkAll start.scopes.names (parse source).tree.outline).2 =
      faults [] (parse source).tree.occurrences := walkAll_eq_faults _
  obtain ⟨es, hes, hscs, hno⟩ := htr.errors
  rw [hfau] at hscs hno
  rw [hes]
  exact ⟨hscs, hno⟩

variable {t : Tree}

lemma everywhere_of_hasNoSwitchOrClass (h : Gen.hasNoSwitchOrClass t = true) :
    (t.Everywhere fun c => c.isOf .switchStatement = false) ∧ t.Everywhere Tree.MethodsDiffer := by
  have hall : ∀ c : Tree, c.Within t →
      c.isOf .switchStatement = false ∧ c.isOf .classDeclaration = false := fun c hc => by
    simpa using (Tree.all_iff t).1 h c hc
  refine ⟨fun c hc => (hall c hc).1, fun c hc hcl => ?_⟩
  rw [(hall c hc).2] at hcl
  cases hcl

/-- A check that was evaluated and ended well. -/
lemma exists_run (hsz : sizeOf t ≤ Gen.enough) (hok : (Gen.checkedUpTo t).1.toBool = true) :
    ∃ type, run t .start = (.ok type, (Gen.checkedUpTo t).2) := by
  rw [Gen.run_eq_checkedUpTo hsz]
  generalize Gen.checkedUpTo t = r at hok
  rcases r with ⟨_ | type, s⟩
  · cases hok
  · exact ⟨type, rfl⟩

/-- In a text without syntax errors and without a `switch`, where no two methods of a class
    have one name: if the check ends well then the complaints about scopes are, in the
    order of the text, one for each assignment to a variable that no declaration before it
    in its own scope or in one around it declares, and one for each declaration of a name
    that the same scope already has. On the way, whatever node is visited in whatever
    state, names that a scope has keep their symbols, which may get a value. -/
theorem scope_errors_exact (source : String) (hparse : (parse source).errors = [])
    (hswitch : (parse source).tree.Everywhere fun t => t.isOf .switchStatement = false)
    (hmethods : (parse source).tree.Everywhere Tree.MethodsDiffer) (type : Ty) (s : Checker)
    (hrun : Checker.run (parse source).tree .start = (.ok type, s)) :
    s.errors.filter (·.complaint.isAboutScopes) = scopeErrors (parse source).tree ∧
      ∀ t, t.Within (parse source).tree → ∀ s type s', Checker.run t s = (.ok type, s') →
        ∀ x sym, s.scopes.current.get? x = some sym →
          ∃ sym', s'.scopes.current.get? x = some sym' ∧ sym.Kept sym' := by
  refine ⟨(traced_of_run hparse hswitch hmethods hrun).1, fun t ht s type s' hrun x sym hx => ?_⟩
  have hsm := (Check.restores_of_derives (derives_of_parse hparse) ht s type s' hrun).scopes
  rw [Scopes.Same, Scopes.tables_eq s.scopes, Scopes.tables_eq s'.scopes] at hsm
  exact hsm.1.symbols x sym hx

theorem scope_errors_exact_slips : (parse Gen.slips).errors = [] ∧
      ∃ type s, Checker.run (parse Gen.slips).tree .start = (.ok type, s) ∧
        s.errors.filter (·.complaint.isAboutScopes) = scopeErrors (parse Gen.slips).tree ∧
        scopeErrors (parse Gen.slips).tree =
          [⟨⟨1, 0⟩, .undeclared "y"⟩, ⟨⟨1, 12⟩, .redeclared "x"⟩] := by
  obtain ⟨-, -, ⟨hparse, hsz, hno, hok, her⟩, -⟩ := Gen.texts_evaluated
  obtain ⟨hswitch, hmethods⟩ := everywhere_of_hasNoSwitchOrClass hno
  obtain ⟨type, hrun⟩ := exists_run hsz hok
  have hexact := (scope_errors_exact Gen.slips hparse hswitch hmethods type _ hrun).1
  refine ⟨hparse, type, _, hrun, hexact, ?_⟩
  rw [← hexact, her]
  rfl

/-- In a text of the same sort that gets no complaint at all, every variable that is
    assigned to and every name whose type is asked for, `this` included, is declared
    before, in the same scope or in one around it. -/
theorem asked_names_declared (source : String) (hparse : (parse source).errors = [])
    (hswitch : (parse source).tree.Everywhere fun t => t.isOf .switchStatement = false)
    (hmethods : (parse source).tree.Everywhere Tree.MethodsDiffer) (type : Ty) (s : Checker)
    (hrun : Checker.run (parse source).tree .start = (.ok type, s)) (hgood : s.errors = []) :
    ∀ before o after, (parse source).tree.occurrences = before ++ o :: after →
      (∀ p, o.act ≠ .declares p) → DeclaredAround before o.name o.scope := by
  intro before o after hspl hact
  have hno := (traced_of_run hparse hswitch hmethods hrun).2 hgood
  have hfault := fault?_eq_none hno hspl
  rw [List.nil_append, Occurrence.fault?] at hfault
  by_contra hdecl
  split at hfault
  · rename_i p hp
    exact hact p hp
  · rw [if_neg hdecl] at hfault
    cases hfault
  · rw [if_neg hdecl] at hfault
    cases hfault

theorem asked_names_declared_settled : (parse Gen.settled).errors = [] ∧
      ∃ type s, Checker.run (parse Gen.settled).tree .start = (.ok type, s) ∧ s.errors = [] ∧
        ∀ before o after, (parse Gen.settled).tree.occurrences = before ++ o :: after →
          (∀ p, o.act ≠ .declares p) → DeclaredAround before o.name o.scope := by
  obtain ⟨-, -, -, -, hparse, hsz, hno, hok, her⟩ := Gen.texts_evaluated
  obtain ⟨hswitch, hmethods⟩ := everywhere_of_hasNoSwitchOrClass hno
  obtain ⟨type, hrun⟩ := exists_run hsz hok
  exact ⟨hparse, type, _, hrun, her,
    asked_names_declared Gen.settled hparse hswitch hmethods type _ hrun her⟩

end Checker

end Compiscript
