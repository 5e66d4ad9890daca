import Compiscript.Check
import Compiscript.Codegen
import Compiscript.Mips
import Compiscript.Parse.Parser
import Compiscript.Tree.Picture

/-!
# Tools

The stages of the compiler behind the front end, as the programs that use them
see them: each takes what the one before it made and may be in trouble.

A program works with any tools of this shape, also with some that are missing
or always fail, so what it does in such a case can be told.
-/

namespace Compiscript

/-- Why a tool gave no result. -/
inductive Trouble where
  /-- Something was missing in the tree. -/
  | absent (a : Absent)
  /-- An instruction could not be lowered. -/
  | lowering (f : Mips.LowerFault)
  /-- Any other reason. -/
  | reported (message : String)
deriving DecidableEq, Repr, Inhabited

namespace Trouble

def message : Trouble → String
  | absent _ => "incomplete tree"
  | lowering .noLabel => "missing label"
  | lowering (.notNumber s) => "not a number: " ++ s
  | reported message => message

end Trouble

/-- The stages behind the front end. -/
structure Tools where
  /-- Three-address code for a tree, with the symbols of the program if they
      are known. -/
  generate : Tree → Option (Table String Symbol) → Except Trouble (List Instr)
  /-- Assembly for three-address code. -/
  assemble : List Instr → Except Trouble String
  /-- A picture of a tree. -/
  draw : Tree → Except Trouble Picture

namespace Tools

/-- The stages of this compiler. -/
def standard : Tools where
  generate t symbols :=
    match Generator.run t (.start symbols) with
    | (.ok _, g) => .ok g.code
    | (.error a, _) => .error (.absent a)
  assemble code := (Mips.program code).mapError .lowering
  draw t := .ok t.picture

end Tools

end Compiscript
