import Compiscript.Proofs.Core.ExprTree

/-!
# Logical Operators

A chain of `&&`, or of `||`, is one node of a parse tree, with all its operands.

Its code evaluates the first operand, and the second one unless the first has decided.
The operands behind these have no code: `1 && 1 && 0` is not zero.

## Theorems

* `Core.logical_chain_value`: A chain means what its first two operands mean.
-/

namespace Compiscript.Core

open Machine Tac Gen

/-- A logical operator. -/
inductive Connective where
  | conj
  | disj
deriving DecidableEq

namespace Connective

/-- The rule of the chains of an operator. -/
def rule : Connective → Rule
  | conj => .logicalAndExpr
  | disj => .logicalOrExpr

/-- The rule of the operands in a chain. -/
def operand : Connective → Rule
  | conj => .equalityExpr
  | disj => .logicalAndExpr

def join : Connective → Expr → Expr → Expr
  | conj => .andAlso
  | disj => .orElse

/-- What an operator says about its operands. -/
def prop : Connective → Prop → Prop → Prop
  | conj => And
  | disj => Or

variable {V : Type} (A : Arith V)

/-- The first operand leaves the truth value open. -/
def LeavesOpen (l : Connective) (x : V) : Prop := x = A.zero ↔ l = .disj

/-- The value if it does not. -/
def decided : Connective → V
  | conj => A.zero
  | disj => A.one

end Connective

variable {V : Type} [DecidableEq V] (A : Arith V)

instance (l : Connective) (x : V) : Decidable (l.LeavesOpen A x) :=
  inferInstanceAs (Decidable (_ ↔ _))

/-- The expression has a value other than zero. -/
def IsTrue (store : String → V) (e : Expr) : Prop := ∃ x, evalIn A store e = .ok x ∧ x ≠ A.zero

variable {A} {store : String → V}

lemma evalIn_join (l : Connective) (a b : Expr) :
    evalIn A store (l.join a b) = (evalIn A store a).bind fun x =>
      if l.LeavesOpen A x then evalIn A store b else .ok (l.decided A) := by
  cases l with
  | conj => simp [Connective.join, evalIn_andAlso, Connective.LeavesOpen, Connective.decided]
  | disj => simp [Connective.join, evalIn_orElse, Connective.LeavesOpen, Connective.decided]

variable {a b : Expr}

/-- An operator has the truth value that it says its operands have. -/
lemma ne_zero_join_iff (hone : A.one ≠ A.zero) (l : Connective) {w : V}
    (h : evalIn A store (l.join a b) = .ok w) :
    w ≠ A.zero ↔ l.prop (IsTrue A store a) (IsTrue A store b) := by
  rw [evalIn_join] at h
  cases ha : evalIn A store a with
  | error f => rw [ha] at h; cases h
  | ok x =>
    rw [ha, Except.bind] at h
    by_cases hopen : l.LeavesOpen A x
    · rw [if_pos hopen] at h
      cases l <;> simp_all [Connective.LeavesOpen, Connective.prop, IsTrue]
    · rw [if_neg hopen] at h
      cases l <;> simp_all [Connective.LeavesOpen, Connective.decided, Connective.prop, IsTrue]

/-- A fault of the second operand is one of the whole only if the first operand leaves
    the truth value open. -/
lemma join_error_iff (l : Connective) {f : Fault} :
    evalIn A store (l.join a b) = .error f ↔ evalIn A store a = .error f ∨
      (∃ x, evalIn A store a = .ok x ∧ l.LeavesOpen A x) ∧ evalIn A store b = .error f := by
  rw [evalIn_join]
  cases ha : evalIn A store a with
  | error f' => simp [Except.bind]
  | ok x => by_cases hopen : l.LeavesOpen A x <;> simp [Except.bind, hopen]

lemma exists_code_join (A : Arith V) (l : Connective) {start : Pos} {cs rest : List Tree}
    {ta tb : Tree} (hcs : cs.filter (·.isOf l.operand) = ta :: tb :: rest)
    (ha : Translates A ta a) (hb : Translates A tb b) (hplain : b.Plain) {p : Temps}
    (hp : p.Kept) (n : Nat) :
    ∃ j bl p' n', Emits (generate (.node ⟨l.rule, none⟩ start cs)) p n (.temp j) bl p' n' ∧
      Codes A (l.join a b) p n (.temp j) bl p' n' := by
  cases l with
  | conj =>
    exact exists_code_logical (generate_of_eq rfl) hcs hplain (by decide) (skips_ifz A)
      (fun _ => rfl) (fun store => evalIn_andAlso store _ _) ha hb hp n
  | disj =>
    exact exists_code_logical (generate_of_eq rfl) hcs hplain (by decide) (skips_ifnz A)
      (fun _ => rfl) (fun store => evalIn_orElse store _ _) ha hb hp n

/-- A chain of any length leaves in a temporary what its first two operands say: it is not
    zero if and only if both are not, or one of them is not for `||`, and the second one is
    evaluated only if the first leaves that open. -/
theorem logical_chain_value (A : Arith V) (hone : A.one ≠ A.zero) (l : Connective) {start : Pos}
    {cs rest : List Tree} {ta tb : Tree} {a b : Expr}
    (hcs : cs.filter (·.isOf l.operand) = ta :: tb :: rest)
    (ha : phrase? ta = some (.expr l.operand a)) (hb : phrase? tb = some (.expr l.operand b))
    (hplain : a.Plain ∧ b.Plain) : (∀ p n, p.Kept → ∃ j bl p' n',
      Emits (generate (.node ⟨l.rule, none⟩ start cs)) p n (.temp j) bl p' n' ∧
        Codes A (l.join a b) p n (.temp j) bl p' n') ∧ ∀ store,
      (∀ w, evalIn A store (l.join a b) = .ok w →
        (w ≠ A.zero ↔ l.prop (IsTrue A store a) (IsTrue A store b))) ∧
      ∀ f, evalIn A store (l.join a b) = .error f ↔ evalIn A store a = .error f ∨
        (∃ x, evalIn A store a = .ok x ∧ l.LeavesOpen A x) ∧ evalIn A store b = .error f :=
  ⟨fun _ n hp => exists_code_join A l hcs (translates_of_phrase A ta ha hplain.1)
      (translates_of_phrase A tb hb hplain.2) hplain.2 hp n,
    fun _ => ⟨fun _ => ne_zero_join_iff hone l, fun _ => join_error_iff l⟩⟩

/-- A number that is an operand of `&&`. -/
def numberOperand (text : String) : Tree :=
  [Rule.equalityExpr, .relationalExpr, .additiveExpr, .multiplicativeExpr, .unaryExpr, .primaryExpr,
    .literalExpr].foldr (fun r c => .node ⟨r, none⟩ default [c]) (.leaf ⟨.literal, text, default⟩)

/-- The value of `1 && 2 && 0` is that of `1 && 2`. -/
theorem logical_chain_value_three :
    ∃ j bl p' n', Emits (generate (.node ⟨.logicalAndExpr, none⟩ default
      [numberOperand "1", .leaf default, numberOperand "2", .leaf default, numberOperand "0"]))
      .empty 0 (.temp j) bl p' n' ∧
    Codes Arith.integers (.andAlso (.int 1) (.int 2)) .empty 0 (.temp j) bl p' n' :=
  (logical_chain_value Arith.integers (by decide) .conj rfl rfl rfl
    ⟨by simp [Expr.Plain, Expr.vars], by simp [Expr.Plain, Expr.vars]⟩).1 .empty 0 Temps.kept_empty

end Compiscript.Core
