/-!
# String Constants

The strings of a program and the lines that put them into memory.

Every string is stored once, and its label bears its number. The empty string
is there from the start, as number 0.

A line holds its string between quotes. What would end the line or the string
is written with a backslash, and so is the backslash.
-/

namespace Compiscript.Mips

/-- Whether an operand is a string with its quotes. A single quote counts: it
    is both the first and the last character. -/
def isQuoted (s : String) : Bool :=
  s.toList.head? == some '"' && s.toList.getLast? == some '"'

/-- What stands between the quotes. -/
def unquoted (s : String) : String := String.ofList (s.toList.drop 1).dropLast

/-- The strings of a program. The number of a string is its place. -/
structure Strings where
  contents : List String
deriving DecidableEq, Repr, Inhabited

namespace Strings

/-- Only the empty string is stored. -/
def start : Strings := ⟨[""]⟩

/-- The label of the string with a number. -/
def label (number : Nat) : String := "str_" ++ toString number

/-- Store a string, unless it is stored already. -/
def intern (d : Strings) (content : String) : Nat × Strings :=
  match d.contents.idxOf? content with
  | some i => (i, d)
  | none => (d.contents.length, ⟨d.contents ++ [content]⟩)

/-- The label of an operand's string, without quotes if it has them. -/
def add (d : Strings) (operand : String) : String × Strings :=
  let (i, d) := d.intern (if isQuoted operand then unquoted operand else operand)
  (label i, d)

/-- A character as it is written between quotes. -/
def escapeChar (c : Char) : List Char :=
  if c = '\\' then ['\\', '\\']
  else if c = '"' then ['\\', '"']
  else if c = '\n' then ['\\', 'n']
  else [c]

/-- A string as it is written between quotes. -/
def escape (s : String) : String := String.ofList (s.toList.flatMap escapeChar)

/-- The line of the string with a number. -/
def line (number : Nat) (content : String) : String :=
  label number ++ ": .asciiz \"" ++ escape content ++ "\""

/-- The lines of the data section. -/
def lines (d : Strings) : List String :=
  [".data"] ++ d.contents.mapIdx line ++ [""]

end Strings

end Compiscript.Mips
