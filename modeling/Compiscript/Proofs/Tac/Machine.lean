import Compiscript.Proofs.Machine
import Compiscript.Tac
import Mathlib.Logic.Function.Basic

/-!
# Running Three-Address Code

A machine for the instructions that work on numbers: jumps, moves, printing,
arithmetic and comparisons.

Code is indifferent to what its numbers are. They may be the integers or words
of a fixed width, and quotients may be rounded one way or another, so the
machine takes its arithmetic as a parameter; all it asks for is a way to read
integers and the operations themselves.

A run begins at the label of the start of a program and is over at the label of
its end. A division by zero stops it before. Any other instruction, and any jump
to a label that is not there, leaves the machine stuck.
-/

namespace Compiscript

open List

/-- Numbers to calculate with. Quotients and remainders are only ever asked for
    where the divisor is not zero. -/
structure Arith (V : Type) where
  ofInt : Int → V
  neg : V → V
  add : V → V → V
  sub : V → V → V
  mul : V → V → V
  div : V → V → V
  mod : V → V → V
  less : V → V → Bool

/-- The operations on two numbers. -/
inductive Binary where
  | add
  | sub
  | mul
  | div
  | mod
  | compare (r : Relation)
deriving DecidableEq, Repr, Inhabited

namespace Arith

variable {V : Type} [DecidableEq V] (A : Arith V)

/-- Zero, which also stands for false. -/
def zero : V := A.ofInt 0

/-- One, which also stands for true. -/
def one : V := A.ofInt 1

/-- The number of a truth value. -/
def flag (b : Bool) : V := if b then A.one else A.zero

/-- Whether two numbers stand in a relation. -/
def holds (r : Relation) (x y : V) : Bool :=
  match r with
  | .eq => decide (x = y)
  | .ne => !decide (x = y)
  | .lt => A.less x y
  | .le => !A.less y x
  | .gt => A.less y x
  | .ge => !A.less x y

/-- The result of an operation, if it has one: a division by zero has none. -/
def result? (op : Binary) (x y : V) : Option V :=
  match op with
  | .add => some (A.add x y)
  | .sub => some (A.sub x y)
  | .mul => some (A.mul x y)
  | .div => if y = A.zero then none else some (A.div x y)
  | .mod => if y = A.zero then none else some (A.mod x y)
  | .compare r => some (A.flag (A.holds r x y))

/-- The integers, with quotients rounded towards zero. -/
def integers : Arith Int where
  ofInt n := n
  neg x := -x
  add x y := x + y
  sub x y := x - y
  mul x y := x * y
  div x y := x.tdiv y
  mod x y := x.tmod y
  less x y := decide (x < y)

/-- Words of 32 bits, read as signed numbers. Results that do not fit wrap around. -/
def words : Arith (BitVec 32) where
  ofInt n := BitVec.ofInt 32 n
  neg x := -x
  add x y := x + y
  sub x y := x - y
  mul x y := x * y
  div x y := x.sdiv y
  mod x y := x.srem y
  less x y := x.slt y

end Arith

/-- The number that a run of decimal digits stands for. -/
def decimal? (cs : List Char) : Option Nat :=
  if cs.isEmpty || !cs.all Char.isDigit then none else some (Nat.ofDigitChars 10 cs 0)

/-- The integer that a text stands for: decimal digits, with a minus sign or without. -/
def literal? (s : String) : Option Int :=
  match s.toList with
  | '-' :: cs => (decimal? cs).map fun n : Nat => -(n : Int)
  | cs => (decimal? cs).map Int.ofNat

/-- The operation on two numbers that an operation of the code is. -/
def Op.binary? : Op → Option Binary
  | .add => some .add
  | .sub => some .sub
  | .mul => some .mul
  | .div => some .div
  | .mod => some .mod
  | .cmp r => some (.compare r)
  | _ => none

/-- The operation of the code for an operation on two numbers. -/
def Binary.op : Binary → Op
  | .add => .add
  | .sub => .sub
  | .mul => .mul
  | .div => .div
  | .mod => .mod
  | .compare r => .cmp r

@[simp] lemma Binary.binary?_op (b : Binary) : b.op.binary? = some b := by
  cases b <;> rfl

namespace Tac

/-- The label that an instruction puts. -/
def labelOf? (i : Instr) : Option String :=
  match i.op, i.a1 with
  | .label, .text l => some l
  | _, _ => none

/-- The labels of code, in order. -/
def labelsOf (code : List Instr) : List String := code.filterMap labelOf?

@[simp] lemma labelsOf_append (a b : List Instr) : labelsOf (a ++ b) = labelsOf a ++ labelsOf b :=
  filterMap_append

variable {i : Instr}

lemma labelsOf_cons_of_none (h : labelOf? i = none) (code : List Instr) :
    labelsOf (i :: code) = labelsOf code :=
  filterMap_cons_none h

/-- The place of a label, the first one if there are several. -/
def target? (code : List Instr) (l : String) : Option Nat :=
  code.findIdx? fun i => labelOf? i = some l

/-- Where labels are distinct, each is found in its place. -/
lemma target?_of_nodup {code : List Instr} (hnd : (labelsOf code).Nodup) {n : Nat}
    {l : String} (hget : code[n]? = some i) (hl : labelOf? i = some l) :
    target? code l = some n := by
  induction code generalizing n with
  | nil => simp at hget
  | cons j rest ih =>
    rw [target?, findIdx?_cons]
    cases n with
    | zero =>
      simp only [getElem?_cons_zero, Option.some.injEq] at hget
      rw [hget, hl]
      simp
    | succ n =>
      simp only [getElem?_cons_succ] at hget
      have hmem : l ∈ labelsOf rest :=
        mem_filterMap.2 ⟨i, mem_of_getElem? hget, hl⟩
      -- The label cannot stand in front as well.
      have hj : labelOf? j ≠ some l := by
        intro hj
        rw [labelsOf, filterMap_cons_some hj] at hnd
        exact (nodup_cons.1 hnd).1 hmem
      have hr : (labelsOf rest).Nodup := by
        rw [labelsOf, filterMap_cons] at hnd
        split at hnd
        · exact hnd
        · exact (nodup_cons.1 hnd).2
      have hih := ih hr hget
      rw [target?] at hih
      simp [hj, hih]

/-- Why a run stops. -/
inductive Halt where
  /-- It has come to the end of the program. -/
  | finished
  | zeroDivision
  /-- The instruction makes no sense to the machine. -/
  | stuck
deriving DecidableEq, Repr, Inhabited

/-- The state of a run: the number of the next instruction, the values of the
    variables, and what was printed so far. -/
structure State (V : Type) where
  pc : Nat
  store : String → V
  out : List V

namespace State

variable {V : Type}

/-- Go on with the next instruction. -/
def next (s : State V) : State V := { s with pc := s.pc + 1 }

/-- Write a variable and go on. -/
def write (s : State V) (x : String) (v : V) : State V :=
  { s with pc := s.pc + 1, store := Function.update s.store x v }

/-- Print a number and go on. -/
def print (s : State V) (v : V) : State V := { s with pc := s.pc + 1, out := s.out ++ [v] }

/-- The state at the start of the program in some code. -/
def start (code : List Instr) (store : String → V) : State V :=
  ⟨(target? code "program_start").getD 0, store, []⟩

end State

section Step

variable {V : Type} [DecidableEq V] (A : Arith V)

/-- The value of an operand. -/
def read (store : String → V) (s : String) : V :=
  match literal? s with
  | some n => A.ofInt n
  | none => if s = "true" then A.one else if s = "false" then A.zero else store s

variable (code : List Instr)

/-- Go on at a label. -/
def jumpTo (l : String) (s : State V) : Except Halt (State V) :=
  match target? code l with
  | some n => .ok { s with pc := n }
  | none => .error .stuck

/-- An operation on two numbers. -/
def calculate (op : Op) (a b x : String) (s : State V) : Except Halt (State V) :=
  match op.binary? with
  | none => .error .stuck
  | some f =>
    match A.result? f (read A s.store a) (read A s.store b) with
    | some v => .ok (s.write x v)
    | none => .error .zeroDivision

/-- What an instruction does. -/
def perform (i : Instr) (s : State V) : Except Halt (State V) :=
  match i.op, i.a1, i.a2, i.res with
  | .label, .text l, _, _ => if l = "program_end" then .error .finished else .ok s.next
  | .jump, .text l, _, _ => jumpTo code l s
  | .ifz, .text a, _, .text l => if read A s.store a = A.zero then jumpTo code l s else .ok s.next
  | .ifnz, .text a, _, .text l =>
    if read A s.store a = A.zero then .ok s.next else jumpTo code l s
  | .mov, .text a, _, .text x => .ok (s.write x (read A s.store a))
  | .print, .text a, _, _ => .ok (s.print (read A s.store a))
  | .neg, .text a, _, .text x => .ok (s.write x (A.neg (read A s.store a)))
  | .not, .text a, _, .text x =>
    .ok (s.write x (A.flag (decide (read A s.store a = A.zero))))
  | op, .text a, .text b, .text x => calculate A op a b x s
  | _, _, _, _ => .error .stuck

/-- One step of a run. -/
def step (s : State V) : Except Halt (State V) :=
  match code[s.pc]? with
  | some i => perform A code i s
  | none => .error .stuck

end Step

/-- Whether an operand stands for a variable. -/
def IsVariable (s : String) : Prop := literal? s = none ∧ s ≠ "true" ∧ s ≠ "false"

instance (s : String) : Decidable (IsVariable s) := inferInstanceAs (Decidable (_ ∧ _ ∧ _))

section Lemmas

variable {V : Type} {A : Arith V} {code : List Instr} {s : State V} {a b l x : String}

variable {store : String → V} {n : Nat}

lemma read_of_isVariable (h : IsVariable x) : read A store x = store x := by
  rcases h with ⟨hlit, htrue, hfalse⟩
  rw [read, hlit]
  simp [htrue, hfalse]

lemma read_of_literal {n : Int} (h : literal? x = some n) : read A store x = A.ofInt n := by
  rw [read, h]

variable [DecidableEq V]

lemma step_label (h : code[s.pc]? = some (.of .label (.text l) .none .none))
    (hl : l ≠ "program_end") : step A code s = .ok s.next := by
  rw [step, h]
  exact if_neg hl

lemma step_end (h : code[s.pc]? = some (.of .label (.text "program_end") .none .none)) :
    step A code s = .error .finished := by
  rw [step, h]
  rfl

lemma step_jump (h : code[s.pc]? = some (.of .jump (.text l) .none .none))
    (hl : target? code l = some n) : step A code s = .ok { s with pc := n } := by
  rw [step, h]
  change jumpTo code l s = _
  rw [jumpTo, hl]

lemma step_ifz_zero (h : code[s.pc]? = some (.of .ifz (.text a) .none (.text l)))
    (hl : target? code l = some n) (ha : read A s.store a = A.zero) :
    step A code s = .ok { s with pc := n } := by
  rw [step, h]
  change (if read A s.store a = A.zero then jumpTo code l s else .ok s.next) = _
  rw [if_pos ha, jumpTo, hl]

lemma step_ifz_ne (h : code[s.pc]? = some (.of .ifz (.text a) .none (.text l)))
    (ha : read A s.store a ≠ A.zero) : step A code s = .ok s.next := by
  rw [step, h]
  exact if_neg ha

lemma step_ifnz_ne (h : code[s.pc]? = some (.of .ifnz (.text a) .none (.text l)))
    (hl : target? code l = some n) (ha : read A s.store a ≠ A.zero) :
    step A code s = .ok { s with pc := n } := by
  rw [step, h]
  change (if read A s.store a = A.zero then .ok s.next else jumpTo code l s) = _
  rw [if_neg ha, jumpTo, hl]

lemma step_ifnz_zero (h : code[s.pc]? = some (.of .ifnz (.text a) .none (.text l)))
    (ha : read A s.store a = A.zero) : step A code s = .ok s.next := by
  rw [step, h]
  exact if_pos ha

lemma step_mov (h : code[s.pc]? = some (.of .mov (.text a) .none (.text x))) :
    step A code s = .ok (s.write x (read A s.store a)) := by
  rw [step, h]
  rfl

lemma step_print (h : code[s.pc]? = some (.of .print (.text a) .none .none)) :
    step A code s = .ok (s.print (read A s.store a)) := by
  rw [step, h]
  rfl

lemma step_neg (h : code[s.pc]? = some (.of .neg (.text a) .none (.text x))) :
    step A code s = .ok (s.write x (A.neg (read A s.store a))) := by
  rw [step, h]
  rfl

lemma step_not (h : code[s.pc]? = some (.of .not (.text a) .none (.text x))) :
    step A code s = .ok (s.write x (A.flag (decide (read A s.store a = A.zero)))) := by
  rw [step, h]
  rfl

lemma perform_binary (op : Binary) {c : String} :
    perform A code ⟨op.op, .text a, .text b, .text x, c⟩ s =
      match A.result? op (read A s.store a) (read A s.store b) with
      | some v => .ok (s.write x v)
      | none => .error .zeroDivision := by
  cases op <;> rfl

lemma step_binary {op : Binary}
    (h : code[s.pc]? = some (.of op.op (.text a) (.text b) (.text x))) :
    step A code s =
      match A.result? op (read A s.store a) (read A s.store b) with
      | some v => .ok (s.write x v)
      | none => .error .zeroDivision := by
  rw [step, h]
  exact perform_binary op

/-- Nothing that was printed is taken back. -/
lemma keepsOutput (A : Arith V) (code : List Instr) :
    Machine.KeepsOutput (step A code) State.out := by
  intro s s' h
  rw [step] at h
  split at h
  · rename_i i _
    simp only [perform, jumpTo, calculate] at h
    -- Printing is the one instruction that adds to the output.
    split at h <;> (try split at h) <;> (try split at h) <;> simp_all
    all_goals subst h; simp [State.next, State.write, State.print]
  · cases h

end Lemmas

end Tac

end Compiscript
