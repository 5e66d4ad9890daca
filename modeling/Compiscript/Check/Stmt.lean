import Compiscript.Check.Expr

/-!
# Checking Statements and Declarations

One definition per kind of statement node, each given the check of the smaller
trees.

The initial value of a variable without a written type is checked twice, once to
find the type and once to compare with it, so what is wrong with it is reported
twice. The statements of a switch are not checked.

A class is declared in three steps. Its name comes first, then the base and the
members one after the other, and only then the bodies of the methods, which can
therefore use all members.
-/

namespace Compiscript.Check

section Stmt

variable (t : Tree) (visit : t.Sub → Check Ty)

/-- `let x: T = e;` -/
def declareVariable : Check Ty := do
  let name ← tokenText t .identifier
  let init? := (t.kid? .initializer).bind fun i => (i.tree.kid? .expression).map i.lift
  let type ← match t.markedType?, init? with
    | some type, _ => pure type
    | none, some e => infer visit e
    | none, none => do
      complain t.pos (.noType name)
      pure .null
  define t.pos (.ofVariable name type false init?.isSome)
  match init? with
  | none => pure ()
  | some e =>
    let found := (← visit e).orNull
    require (← accept type found) t.pos (.variableMismatch name type found)
  return .unknown

/-- `const x: T = e;` -/
def declareConstant : Check Ty := do
  let name ← tokenText t .identifier
  let found ← match t.kid? .expression with
    | some e => visit e
    | none => pure .null
  match t.markedType? with
  | some type => require (← accept type found) t.pos (.constantMismatch name type found)
  | none => pure ()
  define t.pos (.ofVariable name (t.markedType?.getD found) true true)
  return .unknown

/-- The text behind the last `.` among the children that has one behind it, or
    the first such text that is not empty. -/
def textAfterDot? : List Tree → Option String
  | a :: b :: rest =>
    if a.text = "." then
      if b.text ≠ "" then some b.text else (textAfterDot? (b :: rest)).or (some "")
    else textAfterDot? (b :: rest)
  | _ => none

/-- `x = e;` -/
def assignVariable : Check Ty := do
  let name := (t.tokenText? .identifier).getD "<unknown>"
  match ← resolve? name with
  | none => complain t.pos (.undeclared name)
  | some sym =>
    require (!sym.isConst) t.pos (.constantAssigned name)
    let found ← match t.kid? .expression with
      | some e => visit e
      | none => pure .null
    require (← accept sym.type found) t.pos (.variableMismatch name sym.type found)
    modify fun s => { s with scopes := s.scopes.update name Symbol.initialized }
  return .unknown

/-- Whether a value of type `found` may be written to a field of an object of
    type `object`. -/
def assignField (p : Pos) (field : String) (object found : Ty) : Check Unit := do
  match object with
  | .class className =>
    match ← class? className with
    | none => complain p (.noClass className)
    | some id =>
      match (← get).classes.field? id field with
      | none => complain p (.noField className field)
      | some sym =>
        require (!sym.isConst) p (.constantFieldAssigned field)
        require (← accept sym.type found) p (.fieldMismatch field sym.type found)
  | _ => complain p .propertyOfNoObject

/-- `o.f = e;` -/
def assignProperty : Check Ty := do
  match t.kids .expression with
  | object :: value :: rest =>
    match (t.tokenText? .identifier).or (textAfterDot? t.children) with
    | none => complain t.pos .namelessPropertyAssignment
    | some field =>
      let objectType ← visit object
      let found ← visit ((value :: rest).getLast?.getD value)
      assignField t.pos field objectType found
  | _ => complain t.pos .malformedPropertyAssignment
  return .unknown

/-- An assignment, to a variable if `=` is its second part. -/
def assignment : Check Ty :=
  if t.childText? 1 = some "=" then assignVariable t visit else assignProperty t visit

/-- A statement that is one expression. -/
def evaluate : Check Ty := do
  let _ ← visitPart visit (t.kid? .expression)
  return .unknown

/-- The condition of a statement. -/
def condition (statement : Conditional) (part : Option t.Sub) : Check Unit := do
  require ((← visitPart visit part) = .boolean) t.pos (.conditionNotBoolean statement)

/-- The body of a loop. -/
def loopBody : Check Unit := do
  enterLoop
  let _ ← visitPart visit (t.kid? .block)
  leaveLoop

def ifStatement : Check Ty := do
  condition t visit .if (t.kid? .expression)
  let _ ← visitPart visit (t.kidAt? .block 0)
  match t.kidAt? .block 1 with
  | some b => let _ ← visit b
  | none => pure ()
  return .unknown

def whileStatement : Check Ty := do
  condition t visit .while (t.kid? .expression)
  loopBody t visit
  return .unknown

def doWhileStatement : Check Ty := do
  loopBody t visit
  condition t visit .doWhile (t.kid? .expression)
  return .unknown

/-- The header of a `for` belongs to the loop: a declaration there goes to the
    scope around it, and of its two expressions the first one there is counts
    as the condition. -/
def forStatement : Check Ty := do
  enterLoop
  match t.subs[2]? with
  | some first => let _ ← visit first
  | none => pure ()
  match t.kids .expression with
  | [] => pure ()
  | e :: rest =>
    condition t visit .for (some e)
    match rest with
    | update :: _ => let _ ← visit update
    | [] => pure ()
  let _ ← visitPart visit (t.kid? .block)
  leaveLoop
  return .unknown

def foreachStatement : Check Ty := do
  let elem ← match ← visitPart visit (t.kid? .expression) with
    | .array elem => pure elem
    | _ => do
      complain t.pos .foreachOverNoArray
      pure .null
  pushScope
  define t.pos (.ofVariable (← tokenText t .identifier) elem false true)
  loopBody t visit
  popScope
  return .unknown

/-- `break;` and `continue;` -/
def jump (j : Jump) : Check Ty := do
  require (0 < (← get).loopDepth) t.pos (.jumpOutsideLoop j)
  return .unknown

def returnStatement : Check Ty := do
  match (← get).function with
  | none => complain t.pos .returnOutsideFunction
  | some f =>
    let found ← match t.kid? .expression with
      | some e => visit e
      | none => pure .null
    require (← accept f.type found) t.pos (.returnMismatch found f.type)
  return .unknown

/-- The names and types of the parameters of a function node. -/
def parameters (f : Tree) : Check (List (String × Ty)) :=
  match f.kid? .parameters with
  | none => pure []
  | some ps => (ps.tree.kids .parameter).mapM fun p => do
    return (← tokenText p.tree .identifier, (p.tree.typeOf? .typeExpr).getD .null)

/-- Read the body of a function with its parameters in scope. -/
def functionBody (p : Pos) (f : Symbol) (params : List (String × Ty)) (body : Check Unit) :
    Check Unit := do
  for (name, type) in params do
    define p (.ofParameter name type)
  let outer := (← get).function
  modify fun s => { s with function := some f }
  body
  modify fun s => { s with function := outer }

/-- A function outside a class. -/
def declareFunction : Check Ty := do
  let name ← tokenText t .identifier
  let type := (t.typeOf? .typeExpr).getD .null
  let params ← parameters t
  let f := Symbol.ofFunction name type params
  define t.pos f
  pushScope
  functionBody t.pos f params do let _ ← visitPart visit (t.kid? .block)
  popScope
  return .unknown

/-- The name of the base behind the colon of a class declaration. -/
def baseName? : Option String :=
  if t.children.dropLast.any (·.text = ":") then (t.tokenTexts .identifier)[1]? else none

/-- The base of a class, if one is named. -/
def extendBase (id : Nat) : Check Unit := do
  match baseName? t with
  | none => pure ()
  | some base =>
    match ← class? base with
    | none => complain t.pos (.noBaseClass base)
    | some b =>
      modify fun s => { s with classes := s.classes.modify id ({ · with base := some b }) }

/-- Add a field to a class, or complain that it has one of the name. -/
def addField (p : Pos) (id : Nat) (className : String) (sym : Symbol) : Check Unit := do
  let taken := ((← get).classes.get? id).any (·.fields.contains sym.name)
  if taken then complain p (.duplicateField className sym.name)
  else
    modify fun s => { s with
      classes := s.classes.modify id fun c => { c with fields := c.fields.set sym.name sym } }

/-- Add a method to a class. A later one takes the place of an earlier. -/
def addMethod (p : Pos) (id : Nat) (className : String) (sym : Symbol) : Check Unit := do
  let taken := ((← get).classes.get? id).any (·.methods.contains sym.name)
  require (!taken) p (.duplicateMethod className sym.name)
  modify fun s => { s with
    classes := s.classes.modify id fun c => { c with methods := c.methods.set sym.name sym } }

/-- Take a member into its class; bodies of methods are left for later. -/
def declareMember (id : Nat) (className : String) (m : t.Sub) : Check Unit := do
  match m.tree.kid? .variableDeclaration, m.tree.kid? .constantDeclaration,
      m.tree.kid? .functionDeclaration with
  | some v, _, _ =>
    let name ← tokenText v.tree .identifier
    addField v.tree.pos id className
      (.ofVariable name (v.tree.markedType?.getD .null) false (v.tree.hasKid .initializer))
  | none, some c, _ =>
    let name ← tokenText c.tree .identifier
    let type ← match c.tree.markedType? with
      | some type => pure type
      | none => do
        let value := (c.tree.kid? .expression).map fun e => m.lift (c.lift e)
        pure (← visitPart visit value).orNull
    addField c.tree.pos id className (.ofVariable name type true true)
  | none, none, some f =>
    let name ← tokenText f.tree .identifier
    let params ← parameters f.tree
    addMethod f.tree.pos id className
      (.ofFunction name ((f.tree.typeOf? .typeExpr).getD .null) params)
  | none, none, none => pure ()

/-- Read the body of a method. -/
def methodBody (id : Nat) (className : String) (m : t.Sub) : Check Unit := do
  match m.tree.kid? .functionDeclaration with
  | none => pure ()
  | some f =>
    let name ← tokenText f.tree .identifier
    let method := (((← get).classes.get? id).bind (·.methods.get? name)).getD default
    let outer := (← get).inClass
    pushScope
    modify fun s => { s with inClass := some id }
    define f.tree.pos (.ofVariable "this" (.class className) false true)
    functionBody f.tree.pos method (paramsOf method) do
      let _ ← visitPart visit ((f.tree.kid? .block).map fun b => m.lift (f.lift b))
    modify fun s => { s with inClass := outer }
    popScope

/-- A class. -/
def declareClass : Check Ty := do
  let name ← tokenText t .identifier
  let (classes, id) := (← get).classes.add name
  modify fun s => { s with classes }
  define t.pos (.ofClass name (.class name) id)
  modify fun s => { s with classNames := s.classNames.set name id }
  extendBase t id
  for m in t.kids .classMember do declareMember t visit id name m
  for m in t.kids .classMember do methodBody t visit id name m
  return .unknown

/-- Whether nothing behind a statement can run. -/
def endsFlow (statement : Tree) : Bool :=
  statement.hasKid .returnStatement || statement.hasKid .breakStatement ||
    statement.hasKid .continueStatement

/-- The statements of a block. `dead` tells that they cannot run. -/
def statements (dead : Bool) : List t.Sub → Check Unit
  | [] => pure ()
  | s :: rest => do
    require (!dead) s.tree.pos .deadCode
    let _ ← visit s
    statements (dead || endsFlow s.tree) rest

def block : Check Ty := do
  pushScope
  statements t visit false (t.kids .statement)
  popScope
  return .unknown

/-- The condition and the values of a switch. -/
def switchStatement : Check Ty := do
  let type ← visitPart visit (t.kid? .expression)
  require (type = .integer) t.pos (.switchNotInteger type)
  for c in t.kids .switchCase do
    match c.tree.kid? .expression with
    | none => pure ()
    | some e =>
      let found ← visit (c.lift e)
      require (← accept type found) c.tree.pos (.caseMismatch type found)
  return .unknown

def program : Check Ty := do
  for s in t.kids .statement do
    let _ ← visit s
  return .unknown

end Stmt

end Compiscript.Check
