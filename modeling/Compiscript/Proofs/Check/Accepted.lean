import Compiscript.Proofs.Check.Coverage
import Compiscript.Proofs.Check.Scoping

/-!
# Accepted Programs

What a program has that gets no complaint.

Operators are visited in a state that their operands leave as it is.

## Theorems

* `Checker.statements_accepted`: Statements that are in no case of a `switch` are accepted one by
  one, in the scopes, the loops and the function that they stand in.
* `Checker.assignments_accepted`: A statement assigns to a declared variable of a fitting type.
* `Checker.operators_accepted`: Operators ask for certain types of their operands.
-/

namespace Compiscript

lemma Rule.isVisited_of_isOperator {r : Rule} (h : r.isOperator = true) : r.isVisited = true := by
  have hall : ∀ r ∈ Rule.all, r.isOperator = true → r.isVisited = true := by decide
  exact hall r (Rule.mem_all r) h

lemma Tree.exists_operator {t : Tree} (h : t.isOperator = true) :
    ∃ r : Rule, t.isOf r = true ∧ r.isOperator = true := by
  rw [Tree.isOperator, Bool.and_eq_true] at h
  cases t with
  | node tag pos cs => exact ⟨tag.rule, beq_self_eq_true _, h.1⟩
  | leaf | bad => cases h.1

namespace Check

variable {s : Checker} {t : Tree}

lemma target_of_accepted (h : Derived .assignment t) (hs : Accepted t s)
    {x o l : Token} {e : Tree} (hcs : t.children = [.leaf x, .leaf o, e, .leaf l]) :
    ∃ sym found, s.scopes.resolve? x.text = some sym ∧ sym.isConst = false ∧
      Silent (check e) s found ∧ sym.type.accepts? found = some true := by
  obtain ⟨-, type, s', hrun, hs'⟩ := hs
  have hass : Gives (assignment t (check ·.tree)) s type s' := by
    obtain ⟨_, _, _, -, -, rfl⟩ := id h
    rwa [check_node] at hrun
  rcases Tracks.children_assignment h with ⟨y, p, e', l', heq, hy, -, he⟩ |
    ⟨a, p, y, q, b, l', heq, -⟩
  · rw [hcs] at heq
    cases heq
    have hnm : t.tokenText? .identifier = some x.text := by
      simp [Tree.tokenText?, Tree.tokenTexts, hcs, Tree.isToken, Tree.token?, hy, Tree.text]
    obtain ⟨k, hks, rfl⟩ := Tree.kids_eq_singleton (t := t) (r := .expression) (c := e)
      (by simp [hcs, he])
    obtain ⟨_, -, ⟨k', -, hvar⟩ | ⟨a, b, hpair, -⟩⟩ := assignment_cases h
    · rw [hvar] at hass
      obtain ⟨sym, found, hsym, hconst, hval, hacc, -⟩ :=
        assigns_variable hs' h hnm hks hass
      exact ⟨sym, found, hsym, hconst, hval, hacc⟩
    · rw [hks] at hpair
      cases hpair
  · rw [hcs] at heq
    cases heq

lemma demands_of_operands {r : Rule} (h : Derived r t)
    (hr : r = .multiplicativeExpr ∨ r = .unaryExpr) (hop : t.isOperator = true) {types : List Ty}
    (htys : List.Forall₂ (fun k T => Silent (check k) s T) t.operands types) :
    ∃ result, Silent (check t) s result ∧ t.Demands types result := by
  obtain ⟨result, hres⟩ := silent_of_operands h hr fun k hk =>
    (exists_of_forall₂ htys hk).imp fun _ h => h.2
  obtain ⟨types', htypes', hdem⟩ := demands_of_silent h hop hres
  have huni : Relator.RightUnique fun (k : Tree) T => Silent (check k) s T :=
    fun _ _ _ hT hU => hT.unique hU
  cases huni.forall₂ htys htypes'
  exact ⟨result, hres, hdem⟩

end Check

namespace Checker

variable {source : String} {type : Ty} {s' : Checker} {around : List Tree} {c : Tree}

section Accepted

variable (hparse : (parse source).errors = [])
  (hrun : run (parse source).tree .start = (.ok type, s')) (hs' : s'.errors = [])

include hparse hrun hs'

lemma exists_accepted (hpath : (parse source).tree.Path Tree.looksAt around c)
    (hc : c.isOneOf Rule.isVisited = true) :
    ∃ σ, Check.Reaches .start (parse source).tree around c σ ∧ Check.Accepted c σ ∧
      Check.Surrounds around c .start σ :=
  Check.exists_reaches (derives_of_parse hparse) rfl ⟨rfl, type, s', hrun, hs'⟩ hpath hc

end Accepted

section Plain

variable {t : Tree} (h : Gen.isPlain t = true) (hc : c.Within t)

include h hc

lemma isNoCase_of_isPlain : c.IsNoCase ∧ c.isOf .classMember = false ∧
    (c.isOf .leftHandSide = true → Gen.has c (·.isOf .unaryExpr) = false) := by
  have hpl := (Tree.all_iff t).1 h c hc
  simp only [Bool.and_eq_true, Bool.not_eq_true', Bool.and_eq_false_imp] at hpl
  exact ⟨hpl.1.1, hpl.1.2, hpl.2⟩

lemma exists_path_of_isPlain : ∃ around, t.Path (fun a _ => a.IsNoCase) around c :=
  Tree.exists_path hc fun _ _ ha _ _ => (isNoCase_of_isPlain h ha).1

lemma exists_looksAt_of_isPlain (hof : c.isOf .unaryExpr = true) :
    ∃ around, t.Path Tree.looksAt around c := by
  refine Tree.exists_path hc fun a d ha hd hcd => ?_
  obtain ⟨⟨hcase, hdef⟩, hmem, -⟩ := isNoCase_of_isPlain h ha
  unfold Tree.looksAt
  split
  · rename_i hru
    exact absurd (Check.isOf_of_rule hru) (Bool.eq_false_iff.1 hcase)
  · rename_i hru
    exact absurd (Check.isOf_of_rule hru) (Bool.eq_false_iff.1 hdef)
  · rename_i hru
    exact absurd (Check.isOf_of_rule hru) (Bool.eq_false_iff.1 hmem)
  · rw [Bool.eq_false_iff]
    intro htar
    have hno := (isNoCase_of_isPlain h ((Tree.Within.of_mem hd).trans ha)).2.2 htar
    rw [Gen.has_eq_false] at hno
    exact Bool.false_ne_true ((hno c hcd).symm.trans hof)
  · trivial

end Plain

set_option maxRecDepth 100000 in
lemma twisted_evaluated :
    (parse Gen.twisted).errors = [] ∧ sizeOf (parse Gen.twisted).tree ≤ Gen.enough ∧
      (Gen.checkedUpTo (parse Gen.twisted).tree).1.toBool = true ∧
      (Gen.checkedUpTo (parse Gen.twisted).tree).2.errors = [] ∧
      Gen.isPlain (parse Gen.twisted).tree = true ∧
      Gen.has (parse Gen.twisted).tree (fun f => f.isOf .functionDeclaration && Gen.has f fun l =>
        l.isOf .whileStatement && Gen.has l fun c =>
          c.isOf .statement && c.children.any (·.isOf .assignment)) = true ∧
      Gen.has (parse Gen.twisted).tree
        (fun c => c.isOf .assignment && c.children.length == 4) = true ∧
      Gen.has (parse Gen.twisted).tree (·.tag? == some ⟨.assignmentExpr, some .assignExpr⟩) = true ∧
      Gen.has (parse Gen.twisted).tree
        (fun c => c.isOf .unaryExpr && decide (1 < c.children.length)) = true := by
  decide +kernel

/-- In a text without syntax errors that gets no complaint, every statement, unless it is in a case
    of a `switch`, is reached by the checker and gets no complaint there. The scopes and the loops
    that are open then are as many as stand around it, and a function is being read if one stands
    around it. -/
theorem statements_accepted (source : String) (hparse : (parse source).errors = []) (type : Ty)
    (s' : Checker) (hrun : Checker.run (parse source).tree .start = (.ok type, s'))
    (hs' : s'.errors = []) (around : List Tree) (c : Tree)
    (hpath : (parse source).tree.Path (fun a _ => a.IsNoCase) around c)
    (hc : c.isOf .statement = true) :
    ∃ σ, Check.Reaches .start (parse source).tree around c σ ∧ σ.errors = [] ∧
      σ.scopes.inner.length = (around.filter (·.isOneOf Rule.opensScope)).length ∧
      σ.loopDepth = (around.filter (·.isOneOf Rule.isLoop)).length ∧
      σ.function.isSome = around.any (·.isOf .functionDeclaration) ∧
      ∃ type σ', Checker.run c σ = (.ok type, σ') ∧ σ'.errors = [] := by
  have hlooks := Check.looksAt_of_path (derives_of_parse hparse) hpath (.inl hc)
  obtain ⟨σ, hrea, ⟨hσ, hacce⟩, hsur⟩ :=
    exists_accepted hparse hrun hs' hlooks (Tree.isOneOf_of_isOf hc rfl)
  have hno : c.isOneOf Rule.isInExpression = false :=
    Check.isOneOf_eq ((derives_of_parse hparse).of_isOf hpath.within hc) _
  refine ⟨σ, hrea, hσ, ?_, ?_, ?_, hacce⟩
  · rw [hsur.scopes hno]
    exact Nat.zero_add _
  · rw [hsur.loopDepth hno]
    exact Nat.zero_add _
  · rw [hsur.function]
    exact Bool.false_or _

theorem statements_accepted_twisted : (parse Gen.twisted).errors = [] ∧
      ∃ type s' around c, Checker.run (parse Gen.twisted).tree .start = (.ok type, s') ∧
        s'.errors = [] ∧ (parse Gen.twisted).tree.Path (fun a _ => a.IsNoCase) around c ∧
        c.isOf .statement = true ∧ c.children.any (·.isOf .assignment) = true ∧
        around.any (·.isOf .functionDeclaration) = true ∧
        around.any (·.isOneOf Rule.isLoop) = true ∧
        ∃ σ, Check.Reaches .start (parse Gen.twisted).tree around c σ ∧ σ.errors = [] ∧
          σ.scopes.inner.length = (around.filter (·.isOneOf Rule.opensScope)).length ∧
          σ.loopDepth = (around.filter (·.isOneOf Rule.isLoop)).length ∧
          σ.function.isSome = around.any (·.isOf .functionDeclaration) ∧
          ∃ type σ', Checker.run c σ = (.ok type, σ') ∧ σ'.errors = [] := by
  obtain ⟨hparse, hsz, hok, her, hpl, hstmt, -⟩ := twisted_evaluated
  obtain ⟨type, hrun⟩ := exists_run hsz hok
  obtain ⟨f, hf, hfun⟩ := Gen.exists_of_has hstmt
  rw [Bool.and_eq_true] at hfun
  obtain ⟨l, hl, hloop⟩ := Gen.exists_of_has hfun.2
  rw [Bool.and_eq_true] at hloop
  obtain ⟨c, hc, hof⟩ := Gen.exists_of_has hloop.2
  rw [Bool.and_eq_true] at hof
  have hways : ∀ {a d : Tree}, a.Within (parse Gen.twisted).tree → d.Within a →
      ∃ around, a.Path (fun a _ => a.IsNoCase) around d := fun ha hd =>
    Tree.exists_path hd fun _ _ hb _ _ => (isNoCase_of_isPlain hpl (hb.trans ha)).1
  obtain ⟨above, habove⟩ := hways (.refl _) hf
  obtain ⟨between, hbet⟩ := hways hf hl
  obtain ⟨below, hbelow⟩ := hways (hl.trans hf) hc
  have hpath := habove.trans (hbet.trans hbelow)
  have hlf : f ∈ between := hbet.mem_around hfun.1 hloop.1 (by decide)
  have hcl : l ∈ below := hbelow.mem_around hloop.1 hof.1 (by decide)
  exact ⟨hparse, type, _, _, c, hrun, her, hpath, hof.1, hof.2,
    List.any_eq_true.2 ⟨f, by simp [hlf], hfun.1⟩,
    List.any_eq_true.2 ⟨l, by simp [hcl], Tree.isOneOf_of_isOf hloop.1 rfl⟩,
    statements_accepted Gen.twisted hparse type _ hrun her _ c hpath hof.1⟩

/-- In a text without syntax errors that gets no complaint, every statement that assigns to a
    variable, unless it is in a case of a `switch`, finds a declared variable that is no constant
    and that may have the type of the value. Expressions that assign are no more than their
    value to the checker: wherever they are, nothing is asked of their target. -/
theorem assignments_accepted (source : String) (hparse : (parse source).errors = []) (type : Ty)
    (s' : Checker) (hrun : Checker.run (parse source).tree .start = (.ok type, s'))
    (hs' : s'.errors = []) :
    (∀ around c x o e l, (parse source).tree.Path (fun a _ => a.IsNoCase) around c →
      c.isOf .assignment = true → c.children = [.leaf x, .leaf o, e, .leaf l] →
      ∃ σ sym found, Check.Reaches .start (parse source).tree around c σ ∧
        σ.scopes.resolve? x.text = some sym ∧ sym.isConst = false ∧
        Checker.run e σ = (.ok found, σ) ∧ sym.type.accepts? found = some true) ∧
    ∀ c, c.Within (parse source).tree → c.tag? = some ⟨.assignmentExpr, some .assignExpr⟩ →
      ∃ target o value, c.children = [target, .leaf o, value] ∧
        ∀ σ, Checker.run c σ = Checker.run value σ := by
  have h := derives_of_parse hparse
  constructor
  · intro around c x o e l hpath hc hcs
    have hlooks := Check.looksAt_of_path h hpath (.inr hc)
    obtain ⟨σ, hrea, hacce, -⟩ :=
      exists_accepted hparse hrun hs' hlooks (Tree.isOneOf_of_isOf hc rfl)
    obtain ⟨sym, found, htar⟩ :=
      Check.target_of_accepted (h.of_isOf hpath.within hc) hacce hcs
    exact ⟨σ, sym, found, hrea, htar⟩
  · intro c hc htag
    have hof : c.isOf .assignmentExpr = true := Check.isOf_of_rule (by rw [htag]; rfl)
    obtain ⟨target, o, value, hcs, hcheck⟩ := Check.check_assignExpr (h.of_isOf hc hof) htag
    exact ⟨target, o, value, hcs, fun σ => by rw [Checker.run, hcheck, Checker.run]⟩

theorem assignments_accepted_twisted : (parse Gen.twisted).errors = [] ∧
      ∃ type s', Checker.run (parse Gen.twisted).tree .start = (.ok type, s') ∧ s'.errors = [] ∧
        (∃ around c x o e l, (parse Gen.twisted).tree.Path (fun a _ => a.IsNoCase) around c ∧
          c.isOf .assignment = true ∧ c.children = [.leaf x, .leaf o, e, .leaf l] ∧
          ∃ σ sym found, Check.Reaches .start (parse Gen.twisted).tree around c σ ∧
            σ.scopes.resolve? x.text = some sym ∧ sym.isConst = false ∧
            Checker.run e σ = (.ok found, σ) ∧ sym.type.accepts? found = some true) ∧
        ∃ c, c.Within (parse Gen.twisted).tree ∧ c.tag? = some ⟨.assignmentExpr, some .assignExpr⟩ ∧
          ∃ target o value, c.children = [target, .leaf o, value] ∧
            ∀ σ, Checker.run c σ = Checker.run value σ := by
  obtain ⟨hparse, hsz, hok, her, hpl, -, hassi, hval, -⟩ := twisted_evaluated
  obtain ⟨type, hrun⟩ := exists_run hsz hok
  obtain ⟨hsta, hexp⟩ :=
    assignments_accepted Gen.twisted hparse type _ hrun her
  refine ⟨hparse, type, _, hrun, her, ?_, ?_⟩
  · obtain ⟨c, hc, hof⟩ := Gen.exists_of_has hassi
    rw [Bool.and_eq_true, beq_iff_eq] at hof
    obtain ⟨around, hpath⟩ := exists_path_of_isPlain hpl hc
    rcases Check.Tracks.children_assignment ((derives_of_parse hparse).of_isOf hc hof.1) with
      ⟨x, o, e, l, hcs, -⟩ | ⟨a, o, x, q, b, l, hcs, -⟩
    · exact ⟨around, c, x, o, e, l, hpath, hof.1, hcs, hsta around c x o e l hpath hof.1 hcs⟩
    · exact absurd hof.2 (by simp [hcs])
  · obtain ⟨c, hc, htag⟩ := Gen.exists_of_has hval
    exact ⟨c, hc, eq_of_beq htag, hexp c hc (eq_of_beq htag)⟩

/-- In a text without syntax errors that gets no complaint, the operands of every operator that is
    looked at have types as the operator demands them. Of products and signs nothing is demanded:
    wherever they are, and whatever types their operands have, there is no complaint. -/
theorem operators_accepted (source : String) (hparse : (parse source).errors = []) (type : Ty)
    (s' : Checker) (hrun : Checker.run (parse source).tree .start = (.ok type, s'))
    (hs' : s'.errors = []) :
    (∀ around c, (parse source).tree.Path Tree.looksAt around c → c.isOperator = true →
      ∃ σ types result, Check.Reaches .start (parse source).tree around c σ ∧
        List.Forall₂ (fun k T => Checker.run k σ = (.ok T, σ)) c.operands types ∧
        Checker.run c σ = (.ok result, σ) ∧ c.Demands types result) ∧
    ∀ c, c.Within (parse source).tree → c.isOperator = true →
      (c.isOf .multiplicativeExpr = true ∨ c.isOf .unaryExpr = true) → ∀ σ types,
      List.Forall₂ (fun k T => Checker.run k σ = (.ok T, σ)) c.operands types →
      ∃ result, Checker.run c σ = (.ok result, σ) ∧ c.Demands types result := by
  have h := derives_of_parse hparse
  constructor
  · intro around c hpath hop
    obtain ⟨r, hof, hr⟩ := Tree.exists_operator hop
    have hc : Derives Token.Lexed r c := h.of_isOf hpath.within hof
    obtain ⟨σ, hrea, hacce, -⟩ := exists_accepted hparse hrun hs' hpath
      (Tree.isOneOf_of_isOf hof (Rule.isVisited_of_isOperator hr))
    obtain ⟨-, result, hres⟩ :=
      (Check.accepted_expression_iff hc (Rule.isInExpression_of_isOperator hr)).1 hacce
    obtain ⟨types, htys, hdem⟩ := Check.demands_of_silent hc hop hres
    exact ⟨σ, types, result, hrea, htys, hres, hdem⟩
  · intro c hc hop hof σ types htys
    rcases hof with hof | hof
    · exact Check.demands_of_operands (h.of_isOf hc hof) (.inl rfl) hop htys
    · exact Check.demands_of_operands (h.of_isOf hc hof) (.inr rfl) hop htys

theorem operators_accepted_twisted : (parse Gen.twisted).errors = [] ∧
      ∃ type s', Checker.run (parse Gen.twisted).tree .start = (.ok type, s') ∧ s'.errors = [] ∧
        ∃ around c, (parse Gen.twisted).tree.Path Tree.looksAt around c ∧ c.isOperator = true ∧
          c.isOf .unaryExpr = true ∧
          ∃ σ types result, Check.Reaches .start (parse Gen.twisted).tree around c σ ∧
            List.Forall₂ (fun k T => Checker.run k σ = (.ok T, σ)) c.operands types ∧
            Checker.run c σ = (.ok result, σ) ∧ c.Demands types result := by
  obtain ⟨hparse, hsz, hok, her, hpl, -, -, -, hsign⟩ := twisted_evaluated
  obtain ⟨type, hrun⟩ := exists_run hsz hok
  obtain ⟨hloo, hsigns⟩ := operators_accepted Gen.twisted hparse type _ hrun her
  obtain ⟨c, hc, hof⟩ := Gen.exists_of_has hsign
  rw [Bool.and_eq_true] at hof
  have hop : c.isOperator = true := by
    rw [Tree.isOperator, Bool.and_eq_true]
    exact ⟨Tree.isOneOf_of_isOf hof.1 rfl, hof.2⟩
  obtain ⟨around, hpath⟩ := exists_looksAt_of_isPlain hpl hc hof.1
  obtain ⟨σ, types, -, hrea, htys, -, -⟩ := hloo around c hpath hop
  obtain ⟨result, hres⟩ := hsigns c hc hop (.inr hof.1) σ types htys
  exact ⟨hparse, type, _, hrun, her, around, c, hpath, hop, hof.1, σ, types, result, hrea,
    htys, hres⟩

end Checker

end Compiscript
