import Compiscript.Check.Basic

/-!
# Checking Expressions

One definition per kind of expression node. Each is given the check of the
smaller trees and does not call itself.

A chain of operators with a single operand is only a step on the way down and
has the type of its operand. Products and signs are not checked at all: their
type is the last one found among their parts.
-/

namespace Compiscript.Check

section Expr

variable (t : Tree) (visit : t.Sub → Check Ty)

/-- `c ? a : b`, or just `c`. -/
def ternary : Check Ty := do
  let condition ← visitPart visit (t.kid? .logicalOrExpr)
  if t.children.any (·.text = "?") then
    let first ← visitPart visit (t.kidAt? .expression 0)
    let second ← visitPart visit (t.kidAt? .expression 1)
    require (condition = .boolean) t.pos .ternaryPredicate
    require (← accept first second) t.pos .ternaryBranches
    return first
  else return condition

/-- A chain of operands made by rule `operand`: what to do with a single one
    and what with several. -/
def operands (operand : Rule) (several : List t.Sub → Check Ty) : Check Ty :=
  match t.children with
  | [] => throw .children
  | [_] => visitPart visit (t.kidAt? operand 0)
  | _ => several (t.kids operand)

/-- `a || b || …` and `a && b && …`: all operands have to be boolean. -/
def logical (operand : Rule) : Check Ty :=
  operands t visit operand fun parts => do
    for part in parts do
      require ((← visit part) = .boolean) t.pos .logicalOperand
    return .boolean

/-- `a == b != …`: each operand is compared with the one before. -/
def equality : Check Ty :=
  operands t visit .relationalExpr fun parts => do
    let first ← visitPart visit parts.head?
    let _ ← parts.tail.foldlM (fun before part => do
      let type ← visit part
      require (← accept before type) t.pos .incomparable
      return type) first
    return .boolean

/-- `a < b <= …`: all operands have to be numbers. -/
def relational : Check Ty :=
  operands t visit .additiveExpr fun parts => do
    let first ← visitPart visit parts.head?
    let _ ← parts.tail.foldlM (fun before part => do
      let type ← visit part
      require (before.isNumeric && type.isNumeric) t.pos .relationalOperand
      return type) first
    return .boolean

/-- The texts of the children at odd places: the operators of a chain. -/
def operators : List Tree → List String
  | _ :: op :: rest => op.text :: operators rest
  | _ => []

/-- `a + b - …`: numbers, or anything added to a string. -/
def additive : Check Ty :=
  operands t visit .multiplicativeExpr fun parts => do
    let types ← parts.mapM visit
    if types.any (· = .string) then
      if (operators t.children).all (· = "+") then return .string
      complain t.pos .stringOperator
      return .null
    else if types.all Ty.isNumeric then
      return if types.any (· = .float) then .float else .integer
    else
      complain t.pos .additiveOperand
      return .null

/-- The argument expressions of a call or a creation below `t`. -/
def arguments {t : Tree} (call : t.Sub) : List t.Sub :=
  match call.tree.kid? .arguments with
  | some a => (a.tree.kids .expression).map fun e => call.lift (a.lift e)
  | none => []

/-- Compare arguments with parameters one by one. -/
def matchArguments (p : Pos) (mismatch : Nat → Ty → Ty → Complaint)
    (params : List (String × Ty)) (found : List Ty) : Check Unit := do
  for ((_, wanted), type, i) in params.zip (found.zipIdx 1) do
    require (← accept wanted type) p (mismatch i wanted type)

/-- The parameters of a function; nothing else has any. -/
def paramsOf (f : Symbol) : List (String × Ty) :=
  match f.detail with
  | .function params _ _ => params
  | _ => []

/-- What a chain of suffixes has come to: a type, and the function that a call
    would call. -/
abbrev Chained := Ty × Option Symbol

/-- `.name` behind a value. A method counts as its result until it is called. -/
def member (op : Tree) (type : Ty) : Check Chained := do
  let name ← need .text (op.childText? 1)
  match type with
  | .class className =>
    match ← class? className with
    | none =>
      complain op.pos (.noClass className)
      return (.null, none)
    | some id =>
      let classes := (← get).classes
      match classes.field? id name with
      | some field => return (field.type, none)
      | none =>
        match classes.method? id name with
        | some method => return (method.type, some method)
        | none =>
          complain op.pos (.noMember className name)
          return (.null, none)
  | _ =>
    complain op.pos .memberOfNoObject
    return (.null, none)

/-- `(a, b, …)` behind a value. The arguments of something that cannot be
    called are not looked at. -/
def call (op : t.Sub) : Chained → Check Chained
  | (_, none) => do
    complain op.tree.pos .notCallable
    return (.null, none)
  | (type, some f) => do
    let found ← (arguments op).mapM fun e => return (← visit e).orNull
    let params := paramsOf f
    if params.length = found.length then
      matchArguments op.tree.pos (fun i => .argumentMismatch i f.name) params found
    else
      complain op.tree.pos (.argumentCount f.name params.length found.length)
    return (type, none)

/-- `[i]` behind a value. -/
def index (op : t.Sub) : Chained → Check Chained
  | (.array elem, f) => do
    match op.tree.kid? .expression with
    | some e => require ((← visit (op.lift e)) = .integer) op.tree.pos .indexNotInteger
    | none => pure ()
    return (elem, f)
  | (_, f) => do
    complain op.tree.pos .indexedNoArray
    return (.null, f)

/-- One suffix behind a value, told apart by its first token. -/
def suffix (state : Chained) (op : t.Sub) : Check Chained := do
  match op.tree.children with
  | [] => throw .children
  | first :: _ =>
    match first.text with
    | "." => member op.tree state.1
    | "(" => call t visit op state
    | "[" => index t visit op state
    | _ => return state

/-- The function that a name at the start of a chain stands for. The class
    name of a creation is looked up as well. -/
def callee? (atom : Tree) : Check (Option Symbol) := do
  let named := match atom.tag?.bind (·.label) with
    | some .identifierExpr | some .newExpr => atom.tokenText? .identifier
    | _ => none
  match named with
  | none => return none
  | some name =>
    return (← resolve? name).filter fun sym =>
      match sym.detail with
      | .function .. => true
      | _ => false

/-- An atom with suffixes. -/
def leftHandSide : Check Ty := do
  let atom ← need .node (t.kid? .primaryAtom)
  let type ← visit atom
  let start : Chained := match ← callee? atom.tree with
    | some f => (f.type, some f)
    | none => (type, none)
  return (← (t.kids .suffixOp).foldlM (suffix t visit) start).1

/-- The text of the child behind the first one with a given text. -/
def textAfter? (mark : String) : List Tree → Option String
  | a :: b :: rest => if a.text = mark then some b.text else textAfter? mark (b :: rest)
  | _ => none

/-- `new C(a, b, …)`. -/
def newObject : Check Ty := do
  let name? := ((t.tokenText? .identifier).or (textAfter? "new" t.children)).filter (· ≠ "")
  match name? with
  | none =>
    complain t.pos .namelessNew
    return .null
  | some name =>
    match ← class? name with
    | none =>
      complain t.pos (.noClass name)
      return .null
    | some id =>
      let exprs := match t.kid? .arguments with
        | some a => (a.tree.kids .expression).map a.lift
        | none => []
      let found ← exprs.mapM fun e => return (← visit e).orNull
      match (← get).classes.method? id "constructor" with
      | none => pure ()
      | some constructor =>
        let params := paramsOf constructor
        if params.length = found.length then
          matchArguments t.pos (fun i => .constructorMismatch i name) params found
        else
          complain t.pos (.constructorCount name params.length found.length)
      return .class name

/-- `[a, b, …]`: all elements have the type of the first. The first that has
    not is the only one reported. -/
def arrayLiteral : Check Ty := do
  match ← (t.kids .expression).mapM fun e => return (← visit e).orNull with
  | [] => return .array .null
  | base :: rest =>
    go base (rest.zipIdx 2)
    return .array base
where
  go (base : Ty) : List (Ty × Nat) → Check Unit
    | [] => pure ()
    | (type, i) :: rest => do
      if ← accept base type then go base rest
      else complain t.pos (.mixedArray i type base)

end Expr

end Compiscript.Check
