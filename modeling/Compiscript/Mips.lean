import Compiscript.Mips.Lower

/-!
# Assembly Programs

A whole program: its strings, and then its instructions.
-/

namespace Compiscript.Mips

/-- Lower a list of instructions. -/
def lower (code : List Instr) : ExceptT LowerFault Lower Unit := code.forM Lower.instruction

/-- Whether an instruction is the label of the start, given as its result. -/
def startsProgram (i : Instr) : Bool :=
  i.op == .label && i.res == .text "program_start"

/-- The lines in front of the instructions. -/
def header (code : List Instr) : List String :=
  [".text", ".globl main", "main:"] ++
    if code.any startsProgram then [(Asm.j "program_start").line] else []

/-- The text of a program. -/
def program (code : List Instr) : Except LowerFault String :=
  match (lower code).run .start with
  | (.error e, _) => .error e
  | (.ok _, s) =>
    .ok ("\n".intercalate (s.strings.lines ++ header code ++ s.asm.map Asm.line))

end Compiscript.Mips
