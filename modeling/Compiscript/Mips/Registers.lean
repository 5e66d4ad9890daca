import Compiscript.Mips.Asm
import Compiscript.Table

/-!
# Registers for Variables

Which variable is in which register.

A variable stays in the register it was given. A new one takes the first free
register; if there is none, it takes the first of all, and the variable that
was there has no register any more. Nothing is saved to memory.

A missing name is given a register too, but does not occupy it: the register
stays free for the next variable.
-/

namespace Compiscript.Mips

/-- Which variable is in which register, and back. -/
structure Registers where
  ofVariable : Table (Option String) Reg
  holder : Table Reg String
deriving Repr, Inhabited

namespace Registers

/-- All registers are free. -/
def empty : Registers := ⟨.empty, .empty⟩

/-- The register that is taken when none is free. -/
def victim : Reg := .temp 0

def isFree (rs : Registers) (r : Reg) : Bool := !rs.holder.contains r

/-- The first free register. -/
def firstFree? (rs : Registers) : Option Reg := Reg.forVariables.find? rs.isFree

/-- Put a variable into a register. -/
def assign (rs : Registers) (var : Option String) (r : Reg) : Registers :=
  { ofVariable := rs.ofVariable.set var r
    holder := match var with
      | some v => rs.holder.set r v
      | none => rs.holder.erase r }

/-- Take a register away from the variable in it. -/
def evict (rs : Registers) (r : Reg) : Registers :=
  match rs.holder.get? r with
  | some v => { rs with ofVariable := rs.ofVariable.erase (some v) }
  | none => rs

/-- The register of a variable. -/
def take (rs : Registers) (var : Option String) : Reg × Registers :=
  match rs.ofVariable.get? var with
  | some r => (r, rs)
  | none =>
    match rs.firstFree? with
    | some r => (r, rs.assign var r)
    | none => (victim, (rs.evict victim).assign var victim)

/-- The occupied registers, in order. -/
def used (rs : Registers) : List Reg := Reg.forVariables.filter fun r => !rs.isFree r

end Registers

end Compiscript.Mips
