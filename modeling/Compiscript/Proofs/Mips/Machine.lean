import Compiscript.Mips.Asm
import Compiscript.Proofs.Tac.Machine
import Mathlib.Algebra.Group.Int.Defs
import Mathlib.Data.List.Count

/-!
# Running Assembly

A machine for the lines that work on registers.

Registers hold words of 32 bits, and `$zero` holds zero whatever is written to
it. A division leaves a quotient and a remainder behind for `mflo` and `mfhi`; a
product may spoil them, so they are lost there and asking for them then makes no
sense. A number can be loaded if it fits into a word with a sign, and a label
can be jumped to if it stands in one place only.

Labels, comments and blank lines do nothing. Memory and calls of functions are
left out: such a line leaves the machine stuck.
-/

namespace Compiscript.Mips

open List

/-- The word that a number is loaded as, if it fits. -/
def immediate? (s : String) : Option (BitVec 32) :=
  match literal? s with
  | some n => if -2 ^ 31 ≤ n ∧ n < 2 ^ 31 then some (.ofInt 32 n) else none
  | none => none

/-- The label that a line puts. -/
def labelOf? : Asm → Option String
  | .label l => some l
  | _ => none

/-- The labels of some lines, in order. -/
def labelsOf (asm : List Asm) : List String := asm.filterMap labelOf?

/-- The place of a label. A label that is missing has none, and so has one that
    occurs more than once. -/
def target? (asm : List Asm) (l : String) : Option Nat :=
  if (labelsOf asm).count l = 1 then asm.findIdx? fun a => labelOf? a = some l else none

/-- Why a run stops. -/
inductive Halt where
  /-- The system was asked to end it. -/
  | exit
  | zeroDivision
  /-- The line makes no sense to the machine. -/
  | stuck
deriving DecidableEq, Repr, Inhabited

/-- The state of a run. -/
structure State where
  /-- The number of the next line. -/
  pc : Nat
  regs : Reg → BitVec 32
  /-- The last quotient and remainder, as long as they are known. -/
  divided : Option (BitVec 32 × BitVec 32)
  out : List (BitVec 32)

namespace State

/-- The word in a register. -/
def reg (s : State) (r : Reg) : BitVec 32 := if r = .zero then 0 else s.regs r

/-- Go on with the next line. -/
def next (s : State) : State := { s with pc := s.pc + 1 }

/-- Write a register and go on. -/
def write (s : State) (rd : Reg) (v : BitVec 32) : State :=
  { s with pc := s.pc + 1, regs := Function.update s.regs rd v }

/-- Print a word and go on. -/
def print (s : State) (v : BitVec 32) : State := { s with pc := s.pc + 1, out := s.out ++ [v] }

/-- Remember a quotient and a remainder and go on. -/
def divide (s : State) (x y : BitVec 32) : State :=
  { s with pc := s.pc + 1, divided := some (x.sdiv y, x.srem y) }

/-- The state before the first line. -/
def start (regs : Reg → BitVec 32) : State := ⟨0, regs, none, []⟩

variable {s : State} {r rd : Reg} {v : BitVec 32}

lemma reg_of_ne (h : r ≠ .zero) : s.reg r = s.regs r := if_neg h

lemma reg_write_self (h : rd ≠ .zero) : (s.write rd v).reg rd = v := by
  rw [reg_of_ne h]
  exact Function.update_self rd v s.regs

lemma reg_write_of_ne (h : r ≠ rd) : (s.write rd v).reg r = s.reg r := by
  unfold reg
  split
  · rfl
  · exact Function.update_of_ne h v s.regs

end State

/-- One or zero. -/
def bit (b : Bool) : BitVec 32 := if b then 1 else 0

section Step

variable (asm : List Asm)

/-- Go on at a label. -/
def jumpTo (l : String) (s : State) : Except Halt State :=
  match target? asm l with
  | some n => .ok { s with pc := n }
  | none => .error .stuck

/-- Write a word, if there is one. -/
def writeAny (s : State) (rd : Reg) (v : Option (BitVec 32)) : Except Halt State :=
  match v with
  | some v => .ok (s.write rd v)
  | none => .error .stuck

/-- Call the system. -/
def callSystem (s : State) : Except Halt State :=
  if s.reg .result = 1 then .ok (s.print (s.reg (.arg 0)))
  else if s.reg .result = 10 then .error .exit
  else .error .stuck

/-- What a line does. -/
def perform (a : Asm) (s : State) : Except Halt State :=
  match a with
  | .label _ | .comment _ | .heading _ | .blank => .ok s.next
  | .li rd n => writeAny s rd (immediate? n)
  | .move rd r => .ok (s.write rd (s.reg r))
  | .addu rd r1 r2 => .ok (s.write rd (s.reg r1 + s.reg r2))
  | .subu rd r1 r2 => .ok (s.write rd (s.reg r1 - s.reg r2))
  | .mul rd r1 r2 => .ok { s.write rd (s.reg r1 * s.reg r2) with divided := none }
  | .slt rd r1 r2 => .ok (s.write rd (bit ((s.reg r1).slt (s.reg r2))))
  | .sltu rd r1 r2 => .ok (s.write rd (bit ((s.reg r1).ult (s.reg r2))))
  | .xor rd r1 r2 => .ok (s.write rd (s.reg r1 ^^^ s.reg r2))
  | .sltiu rd r n => .ok (s.write rd (bit ((s.reg r).ult (.ofNat 32 n))))
  | .div r1 r2 =>
    if s.reg r2 = 0 then .error .zeroDivision else .ok (s.divide (s.reg r1) (s.reg r2))
  | .mflo rd => writeAny s rd (s.divided.map (·.1))
  | .mfhi rd => writeAny s rd (s.divided.map (·.2))
  | .beq r1 r2 l => if s.reg r1 = s.reg r2 then jumpTo asm l s else .ok s.next
  | .bne r1 r2 l => if s.reg r1 = s.reg r2 then .ok s.next else jumpTo asm l s
  | .j l => jumpTo asm l s
  | .syscall => callSystem s
  | _ => .error .stuck

/-- One step of a run. -/
def step (s : State) : Except Halt State :=
  match asm[s.pc]? with
  | some a => perform asm a s
  | none => .error .stuck

/-- Going through lines one after the other, from the first to behind the last. -/
inductive Execs : List Asm → State → State → Prop where
  | nil (s : State) : Execs [] s s
  | cons {a : Asm} {rest : List Asm} {s s' t : State} (h : perform asm a s = .ok s')
      (hpc : s'.pc = s.pc + 1) (htail : Execs rest s' t) : Execs (a :: rest) s t

end Step

variable {asm a b : List Asm} {s t u : State}

lemma Execs.append (h1 : Execs asm a s t) (h2 : Execs asm b t u) : Execs asm (a ++ b) s u := by
  induction h1 with
  | nil s => exact h2
  | cons h hpc _ ih => exact .cons h hpc (ih h2)

lemma Execs.pc_eq (h : Execs asm a s t) : t.pc = s.pc + a.length := by
  induction h with
  | nil s => rfl
  | cons h hpc _ ih =>
    rw [ih, hpc, length_cons]
    omega

lemma step_of_placed {line : Asm} {rest : List Asm} (h : Machine.Placed asm (line :: rest) s.pc) :
    step asm s = perform asm line s := by
  rw [step, h.get]

/-- Lines that are gone through are so many steps. -/
lemma Execs.steps (h : Execs asm a s t) (hpd : Machine.Placed asm a s.pc) :
    Machine.Steps (step asm) a.length s t := by
  induction h with
  | nil s => exact .refl s
  | cons h hpc _ ih =>
    refine .step ((step_of_placed hpd).trans h) (ih ?_)
    rw [hpc]
    exact hpd.tail

/-- Nothing that was printed is taken back. -/
lemma keepsOutput (asm : List Asm) : Machine.KeepsOutput (step asm) State.out := by
  intro s s' h
  -- Of all lines, only a call of the system touches what was printed.
  have hj : ∀ l, jumpTo asm l s = .ok s' → s.out <+: s'.out := by
    intro l hl
    unfold jumpTo at hl
    split at hl
    · cases hl
      exact prefix_rfl
    · cases hl
  have hwrite : ∀ rd v, writeAny s rd v = .ok s' → s.out <+: s'.out := by
    intro rd v hv
    unfold writeAny at hv
    split at hv
    · cases hv
      exact prefix_rfl
    · cases hv
  have hca : callSystem s = .ok s' → s.out <+: s'.out := by
    intro hc
    unfold callSystem at hc
    split at hc
    · cases hc
      exact prefix_append _ _
    · split at hc <;> cases hc
  rw [step] at h
  split at h
  · rename_i line _
    cases line with
    | li rd n => exact hwrite _ _ h
    | mflo rd => exact hwrite _ _ h
    | mfhi rd => exact hwrite _ _ h
    | j l => exact hj l h
    | syscall => exact hca h
    | beq r1 r2 l =>
      by_cases heq : s.reg r1 = s.reg r2
      · exact hj l ((if_pos heq).symm.trans h)
      · cases (if_neg heq).symm.trans h
        exact prefix_rfl
    | bne r1 r2 l =>
      by_cases heq : s.reg r1 = s.reg r2
      · cases (if_pos heq).symm.trans h
        exact prefix_rfl
      · exact hj l ((if_neg heq).symm.trans h)
    | div r1 r2 =>
      by_cases hz : s.reg r2 = 0
      · cases (if_pos hz).symm.trans h
      · cases (if_neg hz).symm.trans h
        exact prefix_rfl
    | _ => cases h <;> exact prefix_rfl
  · cases h

end Compiscript.Mips
