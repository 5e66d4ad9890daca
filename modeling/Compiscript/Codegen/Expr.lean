import Compiscript.Codegen.Basic

/-!
# Code for Expressions

One definition per kind of expression node, each given the generator for the
smaller trees.

Operands are all evaluated before the first operation; a result goes to a new
temporary, taken before the operands are given back. The logical operators look
at their first two operands only, and the right one is skipped if the left one
decides.

A chain such as `a.b(c)[d].e()` is worked off from left to right. Reading a
field gives a temporary; calling what was just read is a call of a method, and
passes the object that had the field as the first argument.
-/

namespace Compiscript.Gen

section Expr

variable (t : Tree) (visit : t.Sub → Gen Value)

/-- `x = e`: only a name can be written to. -/
def assignExpr : Gen Value := do
  let target ← visitPart visit (t.kid? .leftHandSide)
  let value ← visitPart visit (t.kid? .assignmentExpr)
  match target with
  | .text name => move value name
  | _ => pure ()
  release value
  return value

/-- `o.f = e` -/
def propertyAssignExpr : Gen Value := do
  let object ← visitPart visit (t.kid? .leftHandSide)
  let field ← tokenText t .identifier
  let value ← visitPart visit (t.kid? .assignmentExpr)
  emit .movp value.operand object.operand (.text field)
  release value
  release object
  return value

/-- `c ? a : b`, or an expression without the question. -/
def ternary : Gen Value := do
  match t.kids .expression with
  | whenTrue :: whenFalse :: _ =>
    let cond ← visitPart visit (t.kid? .logicalOrExpr)
    let onFalse ← freshLabel
    let done ← freshLabel
    emit .ifz cond.operand .none (.text onFalse)
    release cond
    let first ← visit whenTrue
    let result := Value.temp (← freshTemp)
    move first result.display
    release first
    jump done
    label onFalse
    let second ← visit whenFalse
    move second result.display
    release second
    label done
    return result
  | _ => visitPart visit (t.kid? .logicalOrExpr)

/-- A logical operator. `skip` jumps away if the left operand decides, and
    `decided` is the result then. -/
def logical (operand : Rule) (skip : Op) (decided : String) : Gen Value := do
  match t.kids operand with
  | [only] => visit only
  | operands =>
    let result := Value.temp (← freshTemp)
    let away ← freshLabel
    let done ← freshLabel
    let left ← visitPart visit operands[0]?
    emit skip left.operand .none (.text away)
    release left
    let right ← visitPart visit operands[1]?
    move right result.display
    release right
    jump done
    label away
    move (.text decided) result.display
    label done
    return result

/-- `a && b` -/
def conjunction : Gen Value := logical t visit .equalityExpr .ifz "0"

/-- `a || b` -/
def disjunction : Gen Value := logical t visit .logicalAndExpr .ifnz "1"

/-- The operators of a chain: every second child. -/
def operators (children : List Tree) : List String :=
  match children with
  | _ :: op :: rest => op.text :: operators rest
  | _ => []

/-- The operation of an arithmetic operator. -/
def arithmeticOp (op : String) : Op :=
  match op with
  | "+" => .add
  | "-" => .sub
  | "*" => .mul
  | "/" => .div
  | "%" => .mod
  | op => .ofOperand (.text ("BIN_" ++ op))

/-- The operation of a comparison. -/
def comparisonOp (op : String) : Op := .ofOperand (.text ("CMP" ++ op))

/-- Apply operations from left to right. -/
def applyOps : Value → List (Op × Value) → Gen Value
  | acc, [] => return acc
  | acc, (op, right) :: rest => do
    let result := Value.temp (← freshTemp)
    emit op acc.operand right.operand (.text result.display)
    release acc
    release right
    applyOps result rest

/-- A chain of binary operators. -/
def binary (operand : Rule) (opOf : String → Op) : Gen Value := do
  match ← visitEach visit (t.kids operand) with
  | [] => return .none
  | [only] => return only
  | first :: rest => applyOps first (((operators t.children).map opOf).zip rest)

/-- `+`, `-`, `*`, `/` and `%` -/
def arithmetic (operand : Rule) : Gen Value := binary t visit operand arithmeticOp

/-- `==`, `!=` and the relations -/
def comparison (operand : Rule) : Gen Value := binary t visit operand comparisonOp

/-- `-e`, `!e`, or an expression without an operator. -/
def unary : Gen Value := do
  match t.kid? .unaryExpr with
  | none => visitPart visit (t.kid? .primaryExpr)
  | some e =>
    let value ← visit e
    let result := Value.temp (← freshTemp)
    match t.childText? 0 with
    | some "-" => emit .neg value.operand .none (.text result.display)
    | some "!" => emit .not value.operand .none (.text result.display)
    | _ => pure ()
    release value
    return result

/-- A literal, the start of a chain, or an expression in parentheses. -/
def primary : Gen Value := do
  match (t.kid? .literalExpr).or ((t.kid? .leftHandSide).or (t.kid? .expression)) with
  | some e => visit e
  | none => return .none

/-- Literals stand for themselves. -/
def literal : Gen Value := return .text ((t.tokenText? .literal).getD t.text)

/-- A name. Inside a function, a name known as a parameter stands for what was
    passed in its place. -/
def identifier : Gen Value := do
  let name ← tokenText t .identifier
  if (← get).function.isSome then
    match ← resolve? name with
    | some ⟨_, _, ⟨_, _, _, some true⟩, .variable _ _ _ index⟩ =>
      return .text ("param" ++ toString index)
    | _ => return .text name
  else return .text name

/-- The arguments of a call, evaluated. -/
def arguments : Gen (List Value) :=
  match t.kid? .arguments with
  | none => return []
  | some args => visitEach visit ((args.tree.kids .expression).map args.lift)

/-- Pass values to a call and give them back. -/
def pass : List Value → Gen Unit
  | [] => pure ()
  | v :: rest => do
    emit .param v.operand .none .none
    release v
    pass rest

/-- `new C(a, b)` -/
def newObject : Gen Value := do
  let name ← tokenText t .identifier
  let args ← arguments t visit
  let object := Value.temp (← freshTemp)
  emit .new (.text name) .none (.text object.display)
  emit .param (.text object.display) .none .none
  pass args
  let result := Value.temp (← freshTemp)
  emit .call (.text ("func_" ++ name ++ "_constructor")) .none (.text result.display)
  release object
  return result

end Expr

/-- What follows in a chain. -/
inductive Suffix where
  | field
  | call
  | index
  /-- A node that was abandoned before it was any of these. -/
  | broken
deriving DecidableEq, Repr, Inhabited

/-- Which suffix a node is. -/
def suffixOf (s : Tree) : Suffix :=
  match s.tag?.bind (·.label) with
  | some .callExpr => .call
  | some .propertyAccessExpr =>
    if (s.tokenText? .identifier).isSome || (2 ≤ s.children.length && s.childText? 0 = some ".")
    then .field else .broken
  | some .indexExpr =>
    if 2 ≤ s.children.length && s.childText? 0 = some "[" then .index else .broken
  | _ => .broken

/-- Read a field into a new temporary. -/
def readField (object : Value) (field : String) : Gen Value := do
  let result := Value.temp (← freshTemp)
  emit .getp object.operand (.text field) (.text result.display)
  return result

/-- How far a chain has come: its value, and the name that was read last. -/
structure Link where
  value : Value
  name : Option String
deriving DecidableEq, Repr, Inhabited

section Chain

variable (t : Tree) (visit : t.Sub → Gen Value)

/-- Read the fields of a chain once more, leaving out calls and indices. -/
def fieldsOf (start : Value) : List t.Sub → Gen Value
  | [] => return start
  | s :: rest =>
    match suffixOf s.tree with
    | .field => do
      let field ← tokenText s.tree .identifier
      let value ← readField start field
      release start
      fieldsOf value rest
    | _ => fieldsOf start rest

/-- The label of a function that is called by name or by what a chain ends
    in. -/
def calleeName (l : Link) : String :=
  match l.value with
  | .text name => name
  | _ => l.name.getD "unknown"

/-- The object a method was read from. `before` is the chain up to the name of
    the method. -/
def receiver (base : Value) (start : Option t.Sub) (before : List t.Sub) : Gen Unit := do
  match before with
  | [] => emit .param base.operand .none .none
  | _ =>
    let object ← fieldsOf t (← visitPart visit start) before
    emit .param object.operand .none .none
    release object

/-- One suffix of a chain, with the suffixes before it, the last one first. -/
def suffix (base : Value) (start : Option t.Sub) (before : List t.Sub) (l : Link) (s : t.Sub) :
    Gen Link := do
  match suffixOf s.tree with
  | .field =>
    let field ← tokenText s.tree .identifier
    let value ← readField l.value field
    if l.value = base then pure () else release l.value
    return ⟨value, some field⟩
  | .call =>
    let args ← arguments s.tree fun a => visit (s.lift a)
    let result := Value.temp (← freshTemp)
    match before with
    | last :: earlier =>
      if suffixOf last.tree = .field then
        receiver t visit base start earlier.reverse
        pass args
        emit .call (.text ("func_" ++ l.name.getD "None")) .none (.text result.display)
      else
        pass args
        emit .call (.text ("func_" ++ calleeName l)) .none (.text result.display)
    | [] =>
      pass args
      emit .call (.text ("func_" ++ calleeName l)) .none (.text result.display)
    release l.value
    return ⟨result, none⟩
  | .index =>
    let index ← visitPart (fun a => visit (s.lift a)) (s.tree.kid? .expression)
    let result := Value.temp (← freshTemp)
    emit .index l.value.operand index.operand (.text result.display)
    release l.value
    release index
    return ⟨result, l.name⟩
  | .broken => return l

/-- The rest of a chain. -/
def suffixes (base : Value) (start : Option t.Sub) (before : List t.Sub) (l : Link) :
    List t.Sub → Gen Value
  | [] => return l.value
  | s :: rest => do suffixes base start (s :: before) (← suffix t visit base start before l s) rest

/-- A name, `this` or a new object, with what follows it. -/
def chain : Gen Value := do
  let start := t.kid? .primaryAtom
  let base ← visitPart visit start
  let name := match base with
    | .text s => some s
    | _ => none
  suffixes t visit base start [] ⟨base, name⟩ (t.kids .suffixOp)

end Chain

end Compiscript.Gen
