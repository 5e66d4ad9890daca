import Compiscript.Proofs.Core.Connectives
import Compiscript.Proofs.Core.Once

/-!
# Values of Assignments

An assignment in the place of an expression stands for the value that it stores, and
several may stand in a row. Each assignment also gives back the temporary that holds the value,
although it is the result: the pool may hand it out again, and has it more than once if
there was more than one assignment.

## Theorems

* `Core.assigned_value`: The value is in the result and in every variable.
-/

namespace Compiscript.Core

open List hiding beq_eq_decide
open Machine Tac Gen

/-- Assignments to variables, from left to right, and the expression behind them. -/
inductive Assigned : Tree → List String → Expr → Prop where
  | value {t : Tree} {e : Expr} (h : phrase? t = some (.expr .assignmentExpr e)) : Assigned t [] e
  | assign {start : Pos} {d c : Tree} {tok : Token} {x : String} {xs : List String} {e : Expr}
      (hd : phrase? d = some (.expr .leftHandSide (.var x))) (h : Assigned c xs e) :
      Assigned (.node ⟨.assignmentExpr, some .assignExpr⟩ start [d, .leaf tok, c]) (x :: xs) e

/-- The code that stores a value in variables, the last of them first. -/
def storeCode (v : Value) (xs : List String) : List Instr :=
  xs.reverse.map fun x => .of .mov v.operand .none (.text x)

/-- The pool when a value was given back several times. -/
def giveBacks (p : Temps) (v : Value) : Nat → Temps
  | 0 => p
  | k + 1 => (giveBacks p v k).giveBack v

/-- A temporary that was given back twice is twice in the pool. -/
lemma nodup_giveBacks {p : Temps} {v : Value} (hp : p.Kept) (hv : p.Held v) (k : Nat) :
    (giveBacks p v k).free.Nodup ↔ k ≤ 1 ∨ ∀ j, v ≠ .temp j := by
  cases v with
  | temp j =>
    have hfree : (giveBacks p (.temp j) k).free = replicate k j ++ p.free := by
      induction k with
      | zero => rfl
      | succ k ih => exact congrArg (j :: ·) ih
    have hj : j ∉ p.free := fun hj => hv.2 (.inl hj)
    simp only [hfree, nodup_append, nodup_replicate, hp.nodup, ne_eq, Value.temp.injEq,
      mem_replicate]
    grind
  | text s =>
    have hsm : giveBacks p (.text s) k = p := by
      induction k with
      | zero => rfl
      | succ k ih => exact ih
    simp [hsm, hp.nodup]
  | none => cases hv

variable {V : Type} [DecidableEq V] {A : Arith V} {t : Tree} {xs : List String} {e : Expr}

lemma Assigned.isOf (h : Assigned t xs e) (r : Rule) : t.isOf r = decide (r = .assignmentExpr) := by
  cases h with
  | value h => simp [isOf_of_phrase h, Phrase.rule?, eq_comm]
  | assign hd h => simp [Tree.isOf, beq_eq_decide, eq_comm]

/-- Only names of variables are assigned. -/
lemma Assigned.isVariable (h : Assigned t xs e) : ∀ x ∈ xs, IsVariable x := by
  induction h with
  | value h => exact forall_mem_nil _
  | assign hd h ih =>
    refine forall_mem_cons.2 ⟨?_, ih⟩
    obtain ⟨l, start, cs, parts, -, hcs, h⟩ := exists_of_expr hd
    obtain ⟨rfl, rfl⟩ := eq_of_leftHandSide h
    rcases hcs with _ | ⟨hd, _ | _⟩
    obtain ⟨l, start', cs, parts, -, -, h⟩ := exists_of_expr hd
    obtain ⟨tok, rfl, rfl, hnm⟩ := exists_of_primaryAtom h
    obtain ⟨y, hy, hvar⟩ := Option.map_eq_some_iff.1 hnm
    cases Expr.var.inj hvar
    rw [nameOf?] at hy
    split at hy
    · rename_i hki
      exact Option.some.inj hy ▸ hki.2
    · cases hy

/-- The code of the expression is followed by one instruction for each variable. -/
lemma Assigned.exists_code (h : Assigned t xs e) (hplain : e.Plain) {p : Temps} (hp : p.Kept)
    (n : Nat) : ∃ v b p1 n1,
      Emits (generate t) p n v (b ++ storeCode v xs) (giveBacks p1 v xs.length) n1 ∧
        Codes A e p n v b p1 n1 := by
  induction h with
  | value h =>
    obtain ⟨v, b, p1, n1, hem, hcds⟩ := translates_of_phrase A _ h hplain p n hp
    refine ⟨v, b, p1, n1, ?_, hcds⟩
    rw [storeCode, reverse_nil, map_nil, append_nil]
    exact hem
  | @assign start d c tok x xs e hd h ih =>
    obtain ⟨v, b, p1, n1, hem, hcds⟩ := ih hplain
    refine ⟨v, b, p1, n1, ?_, hcds⟩
    generalize ht : Tree.node ⟨.assignmentExpr, some .assignExpr⟩ start [d, .leaf tok, c] = t
    obtain ⟨kd, hkd, rfl⟩ := Tree.kid?_eq_some (t := t) (c := d) (r := .leftHandSide)
      (by simp [← ht, isOf_of_phrase hd, h.isOf, Phrase.rule?])
    obtain ⟨kc, hkc, rfl⟩ := Tree.kid?_eq_some (t := t) (c := c) (r := .assignmentExpr)
      (by simp [← ht, isOf_of_phrase hd, h.isOf, Phrase.rule?])
    have hsto : b ++ storeCode v (x :: xs) =
        b ++ storeCode v xs ++ [.of .mov v.operand .none (.text x)] := by simp [storeCode]
    rw [generate_of_eq ht.symm, hsto]
    change Emits (assignExpr t _) _ _ _ _ _ _
    refine (Emits.visitPart hkd (emits_target hd p n)).silent ((Emits.visitPart hkc hem).bind ?_)
    -- What an inner assignment gave back is given back once more, and is still the result.
    exact (Emits.move v x _ _).bind ((Emits.release v _ _).silent (Emits.pure _ _ _))

omit [DecidableEq V] in
/-- What is stored in a variable can be read where it came from. -/
lemma read_update_read (store : String → V) (a : String) {y : String} (hy : IsVariable y) :
    Tac.read A (Function.update store y (Tac.read A store a)) a = Tac.read A store a := by
  by_cases h : a = y
  · subst h
    rw [read_of_isVariable hy, Function.update_self]
  · rw [Tac.read, Tac.read, Function.update_of_ne h]

lemma exists_stored {v : Value} {ys : List String} (hys : ∀ y ∈ ys, IsVariable y)
    {code : List Instr} {start : Nat}
    (hpd : Placed code (ys.map fun y => .of .mov v.operand .none (.text y)) start) {s : State V}
    (hpc : s.pc = start) :
    ∃ s', Reaches (step A code) s s' ∧ s'.pc = start + ys.length ∧ s'.out = s.out ∧
      Tac.read A s'.store v.display = Tac.read A s.store v.display ∧
      ∀ y, s'.store y = if y ∈ ys then Tac.read A s.store v.display else s.store y := by
  induction ys generalizing s start with
  | nil => exact ⟨s, .refl s, hpc, rfl, rfl, fun y => by simp⟩
  | cons y ys ih =>
    rw [forall_mem_cons] at hys
    have hs := step_mov (A := A) (s := s) (hpc ▸ hpd.get)
    -- The value may be read from the very variable that is written: it stays the same.
    have hrd := read_update_read (A := A) s.store v.display hys.1
    obtain ⟨s', hrea, hpc', hout, hval, hsto⟩ := ih hys.2 hpd.tail
      (s := s.write y (Tac.read A s.store v.display)) (congrArg (· + 1) hpc)
    refine ⟨s', (Reaches.one hs).trans hrea, ?_, hout, hval.trans hrd, fun z => ?_⟩
    · rw [hpc', length_cons]
      omega
    · refine (hsto z).trans ?_
      change (if z ∈ ys then Tac.read A (Function.update s.store y _) v.display else
        Function.update s.store y _ z) = _
      rw [hrd]
      by_cases hz : z = y <;> simp [hz]

/-- Right behind its code, a row of assignments has the value of the expression in its
    result and in each variable, and nothing else has changed. The pool has a number twice
    if and only if the value is in a temporary and was assigned more than once. -/
theorem assigned_value (A : Arith V) (h : Assigned t xs e) (hplain : e.Plain) {p : Temps}
    (hp : p.Kept) (n : Nat) : ∃ v b p' n', Emits (generate t) p n v b p' n' ∧
      (p'.free.Nodup ↔ xs.length ≤ 1 ∨ ∀ j, v ≠ .temp j) ∧
      ∀ code start (s : State V), Placed code b start → (labelsOf code).Nodup → s.pc = start →
        (∀ w, evalIn A s.store e = .ok w → ∃ s', Reaches (step A code) s s' ∧
          s'.pc = start + b.length ∧ s'.out = s.out ∧ Tac.read A s'.store v.display = w ∧
          (∀ x ∈ xs, s'.store x = w) ∧ ∀ y ∉ xs, p.Safe y → s'.store y = s.store y) ∧
        ∀ f, evalIn A s.store e = .error f → Faults A code s := by
  obtain ⟨v, b, p1, n1, hem, hcds⟩ := h.exists_code (A := A) hplain hp n
  refine ⟨v, _, _, n1, hem, nodup_giveBacks hcds.kept hcds.held _, ?_⟩
  intro code start s hpd hnd hpc
  refine ⟨fun w hw => ?_, fun f hf => hcds.fault hpd.left hnd hpc hf⟩
  obtain ⟨s1, hpas, rfl⟩ := hcds.value hpd.left hnd hpc hw
  obtain ⟨s', hrea, hpc', hout, hval, hsto⟩ :=
    exists_stored (A := A) (by simpa using h.isVariable) hpd.right hpas.pc_eq
  refine ⟨s', hpas.reaches.trans hrea, ?_, hout.trans hpas.out_eq, hval, ?_, ?_⟩
  · rw [hpc', length_append, storeCode, length_map, Nat.add_assoc]
  · intro x hx
    rw [hsto, if_pos (mem_reverse.2 hx)]
  · intro y hy hsafe
    rw [hsto, if_neg (mt mem_reverse.1 hy)]
    exact hpas.frame y hsafe

/-- A name in front of `=`. -/
def target (x : String) : Tree :=
  .node ⟨.leftHandSide, none⟩ default
    [.node ⟨.primaryAtom, some .identifierExpr⟩ default [.leaf ⟨.identifier, x, default⟩]]

/-- The assignments `x = y = 1 + 1`. -/
def twoTargets : Tree :=
  let chain (rs : List Rule) (c : Tree) : Tree := rs.foldr (fun r c =>
    .node ⟨r, if r = .conditionalExpr then some .ternaryExpr else none⟩ default [c]) c
  let one := chain [.multiplicativeExpr, .unaryExpr, .primaryExpr, .literalExpr]
    (.leaf ⟨.literal, "1", default⟩)
  let sum := chain [.conditionalExpr, .logicalOrExpr, .logicalAndExpr, .equalityExpr,
    .relationalExpr] (.node ⟨.additiveExpr, none⟩ default [one, .leaf ⟨.plus, "+", default⟩, one])
  let assign (x : String) (c : Tree) : Tree :=
    .node ⟨.assignmentExpr, some .assignExpr⟩ default [target x, .leaf default, c]
  assign "x" (assign "y" (.node ⟨.assignmentExpr, some .exprNoAssign⟩ default [sum]))

/-- A sum is in both variables in the end. -/
theorem assigned_value_two : Assigned twoTargets ["x", "y"] (.binary .add (.int 1) (.int 1)) ∧
    ∃ v b p' n', Emits (generate twoTargets) .empty 0 v b p' n' ∧
      (p'.free.Nodup ↔ ["x", "y"].length ≤ 1 ∨ ∀ j, v ≠ .temp j) ∧
      ((labelsOf b).Nodup → ∃ s', Reaches (step Arith.integers b) ⟨0, fun _ => 0, []⟩ s' ∧
        s'.store "x" = 2 ∧ s'.store "y" = 2) := by
  have h : Assigned twoTargets ["x", "y"] (.binary .add (.int 1) (.int 1)) :=
    .assign rfl (.assign rfl (.value rfl))
  obtain ⟨v, b, p', n', hem, hnd, hruns⟩ := assigned_value Arith.integers h
    (by simp [Expr.Plain, Expr.vars]) Temps.kept_empty 0
  refine ⟨h, v, b, p', n', hem, hnd, fun hlab => ?_⟩
  obtain ⟨s', hrea, -, -, -, hsto, -⟩ :=
    (hruns b 0 ⟨0, fun _ => 0, []⟩ (.whole b) hlab rfl).1 2 rfl
  exact ⟨s', hrea, hsto "x" (by simp), hsto "y" (by simp)⟩

end Compiscript.Core
