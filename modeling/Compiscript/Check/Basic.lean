import Compiscript.Absent
import Compiscript.Check.Complaint
import Compiscript.Symbol
import Compiscript.Text.Digit
import Compiscript.Tree

/-!
# Checking: the Ground

The state of a check, and the small steps it is made of.

Checking a tree never stops at a complaint. It does stop where a part of the
tree or a type is missing that it cannot do without; the state at that moment,
with all complaints so far, is then still there to be looked at. So a check is
a step that may fail and keeps its state if it does.

A check of an expression gives its type. Everything else gives `Ty.unknown`,
as does a name that is not declared.
-/

namespace Compiscript

/-- The state of a check. -/
structure Checker where
  scopes : Scopes
  errors : List SemanticError
  /-- How many loops are open. Functions do not start afresh. -/
  loopDepth : Nat
  /-- The function whose body is being read. -/
  function : Option Symbol
  /-- The class whose method is being read. -/
  inClass : Option Nat
  classes : Classes
  /-- The last class declared under each name. -/
  classNames : Table String Nat
deriving Repr, Inhabited

namespace Checker

/-- Nothing has been read yet. -/
def start : Checker :=
  { scopes := .empty, errors := [], loopDepth := 0, function := none, inClass := none,
    classes := .empty, classNames := .empty }

end Checker

/-- A step of a check. -/
abbrev Check := ExceptT Absent (StateM Checker)

namespace Check

/-- Report a complaint. -/
def complain (p : Pos) (c : Complaint) : Check Unit :=
  modify fun s => { s with errors := s.errors ++ [⟨p, c⟩] }

/-- Report a complaint if a condition does not hold. -/
def require (holds : Bool) (p : Pos) (c : Complaint) : Check Unit :=
  if holds then pure () else complain p c

/-- Declare a symbol in the innermost scope, or complain that its name is
    taken there. -/
def define (p : Pos) (sym : Symbol) : Check Unit := do
  match (← get).scopes.define? sym with
  | some scopes => modify ({ · with scopes })
  | none => complain p (.redeclared sym.name)

/-- What a name stands for. -/
def resolve? (name : String) : Check (Option Symbol) := do
  return (← get).scopes.resolve? name

/-- The class that a name stands for at this moment. -/
def class? (name : String) : Check (Option Nat) := do
  return (← get).classNames.get? name

def pushScope : Check Unit := modify fun s => { s with scopes := s.scopes.push }

def popScope : Check Unit := modify fun s => { s with scopes := s.scopes.pop }

def enterLoop : Check Unit := modify fun s => { s with loopDepth := s.loopDepth + 1 }

def leaveLoop : Check Unit := modify fun s => { s with loopDepth := s.loopDepth - 1 }

/-- Go on with something that may be missing. -/
def need {α : Type} (what : Absent) : Option α → Check α
  | some a => pure a
  | none => throw what

/-- Whether a value of type `b` may stand where one of type `a` is wanted. -/
def accept (a b : Ty) : Check Bool := need .type (a.accepts? b)

/-- The type of a token. Literals have the type they are written in, names the
    type they were declared with. -/
def ofText (text : String) : Check Ty := do
  let cs := text.toList
  if 2 ≤ cs.length && cs.head? == some '"' && cs.getLast? == some '"' then return .string
  else if text = "true" || text = "false" then return .boolean
  else if text = "null" then return .null
  else if Text.isPointNumeral cs then return .float
  else if Text.isNumeral cs then return .integer
  else
    match ← resolve? text with
    | some sym => return sym.type
    | none => return .unknown

/-- The text of the first token of a kind among the children. -/
def tokenText (t : Tree) (k : Kind) : Check String := need .text (t.tokenText? k)

section Visit

variable {t : Tree} (visit : t.Sub → Check Ty)

/-- Visit a part that has to be there. -/
def visitPart (part : Option t.Sub) : Check Ty := do visit (← need .node part)

/-- Visit all children. The last type that was found is the result. -/
def visitAll : Check Ty :=
  t.subs.foldlM (fun found c => do
    let type ← visit c
    return if type = .unknown then found else type) .unknown

/-- The type of an expression, `null` if it has none or cannot be checked. -/
def infer (e : t.Sub) : Check Ty :=
  tryCatch (do return (← visit e).orNull) fun _ => return .null

end Visit

end Check

/-- The type that a part of a tree denotes, `null` if it is not there. -/
def Tree.typeOf? (t : Tree) (r : Rule) : Option Ty := (t.kid? r).map fun c => .ofName c.tree.text

/-- The type that a type mark gives to a declaration; none without a mark. -/
def Tree.markedType? (t : Tree) : Option Ty :=
  (t.kid? .typeMark).map fun m => (m.tree.typeOf? .typeExpr).getD .null

end Compiscript
