import Compiscript.Text.Utf8
import Compiscript.Tools

/-!
# The Checking Command

A command that reads a file and says what is wrong with it: its syntax errors
if there are any, and otherwise the complaints of the checker. For a program
in order it also draws the tree, if it can.
-/

namespace Compiscript

/-- What the command came to. -/
inductive CheckReport where
  /-- No file was named. -/
  | usage
  /-- The file is no text. -/
  | undecodable (f : Utf8.Fault)
  | syntaxErrors (es : List SyntaxError)
  /-- The checker gave up. -/
  | abandoned (a : Absent)
  | semanticErrors (es : List SemanticError)
  /-- The program is in order. -/
  | accepted (picture : Option Picture)
deriving Repr, Inhabited

/-- Check the program in a file, given by its bytes. -/
def checkFile (tools : Tools) (file : Option (List UInt8)) : CheckReport :=
  match file with
  | none => .usage
  | some bytes =>
    match Utf8.decode bytes with
    | .error f => .undecodable f
    | .ok source =>
      let parsed := parse source
      if parsed.errors.isEmpty then
        match Checker.run parsed.tree .start with
        | (.error a, _) => .abandoned a
        | (.ok _, s) =>
          if s.errors.isEmpty then .accepted (tools.draw parsed.tree).toOption
          else .semanticErrors s.errors
      else .syntaxErrors parsed.errors

namespace CheckReport

/-- What the command prints. -/
def lines : CheckReport → List String
  | usage => ["Usage: python Driver.py <file.cps>"]
  | undecodable _ => []
  | syntaxErrors es => es.map SyntaxError.display
  | abandoned _ => []
  | semanticErrors es => es.map SemanticError.display
  | accepted _ => ["Semantic OK"]

/-- How the command ends; it does not end in order if the file is no text or
    the checker gave up. -/
def exitCode? : CheckReport → Option UInt32
  | undecodable _ | abandoned _ => none
  | accepted _ => some 0
  | _ => some 1

/-- The picture that was drawn. -/
def picture? : CheckReport → Option Picture
  | accepted p => p
  | _ => none

end CheckReport

end Compiscript
