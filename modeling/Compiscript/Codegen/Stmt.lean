import Compiscript.Codegen.Expr

/-!
# Code for Statements and Declarations

One definition per kind of statement node, each given the generator for the
smaller trees. Statements that have no definition here, such as `for`, `switch`
or `break`, come out as the code of their parts, one after the other.

A function ends in a single return. A return statement puts its value into the
temporary for the result, which is taken at the first one of them, and jumps
to the end.
-/

namespace Compiscript.Gen

section Stmt

variable (t : Tree) (visit : t.Sub → Gen Value)

/-- Visit parts for their code. -/
def visitStatements : List t.Sub → Gen Unit
  | [] => pure ()
  | s :: rest => do
    let _ ← visit s
    visitStatements rest

/-- Whether a statement declares a function or a class. -/
def isDeclaration (s : Tree) : Bool := s.hasKid .functionDeclaration || s.hasKid .classDeclaration

/-- A program: first its statements, between two labels, and behind them the
    functions and classes, all in their order. -/
def program : Gen Value := do
  let (declarations, statements) := (t.kids .statement).partition fun s => isDeclaration s.tree
  label "program_start"
  visitStatements t visit statements
  label "program_end"
  visitStatements t visit declarations
  return .none

/-- A statement that is one expression. -/
def evaluate : Gen Value := do
  let _ ← visitPart visit (t.kid? .expression)
  return .none

/-- A value to be printed; one that is missing stays so. -/
def printed : Value → Operand
  | .none => .none
  | v => v.operand

/-- `print(e);` -/
def printStatement : Gen Value := do
  let value ← visitPart visit (t.kid? .expression)
  emit .print (printed value) .none .none
  release value
  return .none

/-- `let x: T = e;` Inside a function, `x` gets a place in its frame. -/
def declareVariable : Gen Value := do
  let name ← tokenText t .identifier
  match (← get).function with
  | some f => place Frame.addLocal f name (← resolve? name)
  | none => pure ()
  match (t.kid? .initializer).bind fun i => (i.tree.kid? .expression).map i.lift with
  | none => return .none
  | some e =>
    let value ← visit e
    move value name
    release value
    return .none

/-- `x = e;` or `o.f = e;` The value of the second kind comes before the
    object. -/
def assignment : Gen Value := do
  match t.tokenText? .identifier, t.kids .expression with
  | some name, [e] =>
    let value ← visit e
    move value name
    release value
  | some field, object :: e :: rest =>
    let value ← visit ((e :: rest).getLast?.getD e)
    let object ← visit object
    emit .movp value.operand object.operand (.text field)
    release value
    release object
  | _, _ => pure ()
  return .none

def ifStatement : Gen Value := do
  let cond ← visitPart visit (t.kid? .expression)
  let otherwise ← freshLabel
  let done ← freshLabel
  emit .ifz cond.operand .none (.text otherwise)
  release cond
  let _ ← visitPart visit (t.kidAt? .block 0)
  jump done
  label otherwise
  match t.kidAt? .block 1 with
  | some b => let _ ← visit b
  | none => pure ()
  label done
  return .none

def whileStatement : Gen Value := do
  let again ← freshLabel
  let done ← freshLabel
  label again
  let cond ← visitPart visit (t.kid? .expression)
  emit .ifz cond.operand .none (.text done)
  release cond
  let _ ← visitPart visit (t.kid? .block)
  jump again
  label done
  return .none

/-- The temporary for the result of the function, taken if there is none. -/
def resultTemp : Gen Value := do
  match (← get).result with
  | some n => return .temp n
  | none =>
    let n ← freshTemp
    modify fun s => { s with result := some n }
    return .temp n

/-- `return e;` The end is that of the function by its name. -/
def returnStatement : Gen Value := do
  match t.kid? .expression with
  | none => pure ()
  | some e =>
    let value ← visit e
    let result ← resultTemp
    move value result.display
    release value
  jump ((← get).function.getD "None" ++ "_exit")
  return .none

/-- The labels at the start and at the end of a function. -/
def functionLabels (inClass : Option String) (name : String) : String × String :=
  match name, inClass with
  | "constructor", some c => ("func_" ++ c ++ "_constructor", c ++ "_constructor_exit")
  | _, _ => ("func_" ++ name, name ++ "_exit")

/-- A symbol that knows the labels of its function. -/
def labelled (entry exit : String) (sym : Symbol) : Symbol :=
  match sym.detail with
  | .function params _ _ => { sym with detail := .function params (some entry) (some exit) }
  | _ => sym

/-- A symbol that stands for the parameter with a number. -/
def numbered (index : Nat) (sym : Symbol) : Symbol :=
  match sym.detail with
  | .variable p c i _ =>
    { sym with place := { sym.place with isParam := some true }, detail := .variable p c i index }
  | _ => sym

/-- Place the parameters of a function in its frame. -/
def placeParameters (function : String) (index : Nat) : List Tree → Gen Unit
  | [] => pure ()
  | p :: rest => do
    let name ← tokenText p .identifier
    place Frame.addParam function name ((← resolve? name).map (numbered index))
    placeParameters function (index + 1) rest

/-- The parameters of a function node. -/
def parametersOf : List Tree :=
  match t.kid? .parameters with
  | none => []
  | some ps => (ps.tree.kids .parameter).map (·.tree)

/-- The end of a function: its label, and the return of its result. -/
def closeFunction (exit : String) : Gen Unit := do
  label exit
  match (← get).result with
  | some n => emit .ret (Value.temp n).operand .none .none
  | none => emit .ret .none .none .none
  modify fun s => { s with function := none, result := none }

def declareFunction : Gen Value := do
  let name ← tokenText t .identifier
  modify fun s => { s with function := some name, result := none }
  let inClass := (← get).inClass
  let (entry, exit) := functionLabels inClass name
  match ← resolve? name with
  | some sym => store (labelled entry exit sym)
  | none => pure ()
  label entry
  match inClass with
  | some c => emit .methodBegin (.text c) .none (.text entry)
  | none => pure ()
  modify fun s => { s with frames := s.frames.ensure name }
  placeParameters name 0 (parametersOf t)
  emit .enter (.int 0) .none .none
  match t.kid? .block with
  | some b => let _ ← visit b
  | none => pure ()
  closeFunction exit
  return .none

/-- The members of a class, one after the other. -/
def declareClass : Gen Value := do
  let name ← tokenText t .identifier
  modify fun s => { s with inClass := some name }
  visitStatements t visit (t.kids .classMember)
  modify fun s => { s with inClass := none }
  return .none

end Stmt

end Compiscript.Gen
