/-!
# Assembly

Registers, instructions and the lines they are written as.

Instructions are data, so that what they do can be said apart from how they
look; `Asm.line` is the only place where they become text. Numbers loaded with
`li` are kept as they were written.
-/

namespace Compiscript.Mips

/-- The registers. -/
inductive Reg where
  /-- Always zero. -/
  | zero
  /-- The register for literals, `$at`. -/
  | scratch
  /-- The register for results and for the number of a system call, `$v0`. -/
  | result
  /-- The registers for arguments. Four of them exist, but any number can be
      asked for. -/
  | arg (n : Int)
  | temp (i : Fin 8)
  | saved (i : Fin 8)
  | stack
  | frame
  | link
deriving DecidableEq, Repr, Inhabited

namespace Reg

def name : Reg → String
  | zero => "$zero"
  | scratch => "$at"
  | result => "$v0"
  | arg n => "$a" ++ toString n
  | temp i => "$t" ++ toString i.val
  | saved i => "$s" ++ toString i.val
  | stack => "$sp"
  | frame => "$fp"
  | link => "$ra"

instance : @NeZero Nat Zero.ofOfNat0 8 := ⟨by decide⟩

/-- The register that holds the object a method works on. -/
def this : Reg := saved 7

/-- The registers for variables, in the order in which they are given out. -/
def forVariables : List Reg :=
  (List.finRange 8).map temp ++ (List.finRange 8).map saved

end Reg

/-- What a line of assembly can hold. -/
inductive Asm where
  | label (name : String)
  | comment (text : String)
  /-- A comment that starts its line. -/
  | heading (text : String)
  | blank
  /-- Load a number, as it was written. -/
  | li (rd : Reg) (literal : String)
  /-- Load the address of a label. -/
  | la (rd : Reg) (label : String)
  | move (rd rs : Reg)
  | addu (rd r1 r2 : Reg)
  | subu (rd r1 r2 : Reg)
  | mul (rd r1 r2 : Reg)
  | slt (rd r1 r2 : Reg)
  | sltu (rd r1 r2 : Reg)
  | xor (rd r1 r2 : Reg)
  | sltiu (rd rs : Reg) (n : Nat)
  | addi (rd rs : Reg) (n : Int)
  | div (r1 r2 : Reg)
  /-- The quotient of the last division. -/
  | mflo (rd : Reg)
  /-- The remainder of the last division. -/
  | mfhi (rd : Reg)
  | beq (r1 r2 : Reg) (label : String)
  | bne (r1 r2 : Reg) (label : String)
  | j (label : String)
  | jal (label : String)
  | jr (rs : Reg)
  | lw (rd : Reg) (offset : Nat) (base : Reg)
  | sw (rs : Reg) (offset : Nat) (base : Reg)
  | syscall
deriving DecidableEq, Repr, Inhabited

namespace Asm

/-- A line with a name and operands. -/
def instruction (name : String) (operands : List String) : String :=
  "    " ++ name ++ " " ++ ", ".intercalate operands

/-- A place in memory. -/
def address (offset : Nat) (base : Reg) : String :=
  toString offset ++ "(" ++ base.name ++ ")"

/-- The line of an instruction. -/
def line : Asm → String
  | label name => name ++ ":"
  | comment text => "    # " ++ text
  | heading text => "# " ++ text
  | blank => ""
  | li rd n => instruction "li" [rd.name, n]
  | la rd l => instruction "la" [rd.name, l]
  | move rd rs => instruction "move" [rd.name, rs.name]
  | addu rd r1 r2 => instruction "addu" [rd.name, r1.name, r2.name]
  | subu rd r1 r2 => instruction "subu" [rd.name, r1.name, r2.name]
  | mul rd r1 r2 => instruction "mul" [rd.name, r1.name, r2.name]
  | slt rd r1 r2 => instruction "slt" [rd.name, r1.name, r2.name]
  | sltu rd r1 r2 => instruction "sltu" [rd.name, r1.name, r2.name]
  | xor rd r1 r2 => instruction "xor" [rd.name, r1.name, r2.name]
  | sltiu rd rs n => instruction "sltiu" [rd.name, rs.name, toString n]
  | addi rd rs n => instruction "addi" [rd.name, rs.name, toString n]
  | div r1 r2 => instruction "div" [r1.name, r2.name]
  | mflo rd => instruction "mflo" [rd.name]
  | mfhi rd => instruction "mfhi" [rd.name]
  | beq r1 r2 l => instruction "beq" [r1.name, r2.name, l]
  | bne r1 r2 l => instruction "bne" [r1.name, r2.name, l]
  | j l => instruction "j" [l]
  | jal l => instruction "jal" [l]
  | jr rs => instruction "jr" [rs.name]
  | lw rd o b => instruction "lw" [rd.name, address o b]
  | sw rs o b => instruction "sw" [rs.name, address o b]
  | syscall => "    syscall"

end Asm

end Compiscript.Mips
