import Compiscript.Tac

/-!
# Code for Reading

Two ways of writing three-address code down that, other than a listing, show
every operand.

In columns, each instruction has a line number, and operation and arguments are
filled up with blanks.

With tabs, operands that are missing, empty or zero leave their field empty, and
a label is a line of its own kind.
-/

namespace Compiscript

/-- A text filled up with blanks behind it. -/
def padRight (width : Nat) (s : String) : String := s.pushn ' ' (width - s.length)

/-- A text filled up with a character before it. -/
def padLeft (fill : Char) (width : Nat) (s : String) : String :=
  "".pushn fill (width - s.length) ++ s

namespace Operand

/-- An operand as a text, empty if it is missing. -/
def orEmpty : Operand → String
  | none => ""
  | o => o.display

/-- An operation in its column. -/
def opColumn? : Operand → Option String
  | none => .none
  | text s => some (padRight 12 s)
  | int n => some (padLeft ' ' 12 (toString n))
  | flag b => some (padLeft ' ' 12 (if b then "1" else "0"))

/-- Whether an operand stands for something: it is there, not empty and not
    zero. -/
def isPresent : Operand → Bool
  | none => false
  | text s => !s.isEmpty
  | int n => n ≠ 0
  | flag b => b

/-- An operand in a field between tabs. -/
def tabField (o : Operand) : String := if o.isPresent then o.display else ""

end Operand

namespace Instr

/-- An instruction in columns, behind its number. -/
def columns? (number : Nat) (i : Instr) : Option String := do
  let op ← i.op.operand.opColumn?
  return padLeft '0' 4 (toString number) ++ ": " ++ op ++ " " ++ padRight 12 i.a1.orEmpty ++ " " ++
    padRight 12 i.a2.orEmpty ++ " " ++ i.res.orEmpty

/-- An instruction with tabs between its parts. -/
def tabbed (i : Instr) : String :=
  match i.op with
  | .label => (if i.res.isPresent then i.res else i.a1).display ++ ":"
  | op =>
    "\t".intercalate [op.operand.display, i.a1.tabField, i.a2.tabField, i.res.tabField]

end Instr

namespace Tac

/-- Code in columns, from line `number` on. -/
def columnsFrom? (number : Nat) : List Instr → Option (List String)
  | [] => some []
  | i :: rest => do return (← i.columns? number) :: (← columnsFrom? (number + 1) rest)

/-- Code in columns. -/
def columns? (code : List Instr) : Option String :=
  (columnsFrom? 0 code).map ("\n".intercalate ·)

/-- Code with tabs, each line ended. -/
def tabbed (code : List Instr) : String := String.join (code.map fun i => i.tabbed ++ "\n")

end Tac

end Compiscript
