import Compiscript.Check.Stmt

/-!
# Checking a Program

The check of a whole tree, put together from the checks of its nodes.

`Check.node` says what to do with one node, given what to do with the smaller
trees; `check` ties the knot. Nodes for which there is nothing special to do
have their children visited in order.
-/

namespace Compiscript

namespace Check

/-- What to do with a node of a kind. -/
def tagged (t : Tree) (visit : t.Sub → Check Ty) : Tag → Check Ty
  | ⟨.program, _⟩ => program t visit
  | ⟨.variableDeclaration, _⟩ => declareVariable t visit
  | ⟨.constantDeclaration, _⟩ => declareConstant t visit
  | ⟨.assignment, _⟩ => assignment t visit
  | ⟨.expressionStatement, _⟩ => evaluate t visit
  | ⟨.printStatement, _⟩ => evaluate t visit
  | ⟨.ifStatement, _⟩ => ifStatement t visit
  | ⟨.whileStatement, _⟩ => whileStatement t visit
  | ⟨.doWhileStatement, _⟩ => doWhileStatement t visit
  | ⟨.forStatement, _⟩ => forStatement t visit
  | ⟨.foreachStatement, _⟩ => foreachStatement t visit
  | ⟨.breakStatement, _⟩ => jump t .break
  | ⟨.continueStatement, _⟩ => jump t .continue
  | ⟨.returnStatement, _⟩ => returnStatement t visit
  | ⟨.functionDeclaration, _⟩ => declareFunction t visit
  | ⟨.classDeclaration, _⟩ => declareClass t visit
  | ⟨.block, _⟩ => block t visit
  | ⟨.switchStatement, _⟩ => switchStatement t visit
  | ⟨_, some .assignExpr⟩ => visitPart visit (t.kid? .assignmentExpr)
  | ⟨_, some .propertyAssignExpr⟩ => visitPart visit (t.kid? .assignmentExpr)
  | ⟨_, some .exprNoAssign⟩ => visitPart visit (t.kid? .conditionalExpr)
  | ⟨_, some .ternaryExpr⟩ => ternary t visit
  | ⟨.logicalOrExpr, _⟩ => logical t visit .logicalAndExpr
  | ⟨.logicalAndExpr, _⟩ => logical t visit .equalityExpr
  | ⟨.equalityExpr, _⟩ => equality t visit
  | ⟨.relationalExpr, _⟩ => relational t visit
  | ⟨.additiveExpr, _⟩ => additive t visit
  | ⟨.leftHandSide, _⟩ => leftHandSide t visit
  | ⟨_, some .newExpr⟩ => newObject t visit
  | ⟨.arrayLiteral, _⟩ => arrayLiteral t visit
  | _ => visitAll visit

/-- The check of one node. Bad tokens are passed over. -/
def node (t : Tree) (visit : t.Sub → Check Ty) : Check Ty :=
  match t with
  | .node tag start children => tagged (.node tag start children) visit tag
  | .leaf token => ofText token.text
  | .bad _ => return .unknown

end Check

/-- The check of a tree. -/
def check (t : Tree) : Check Ty := Check.node t fun c => check c.tree
termination_by sizeOf t
decreasing_by exact c.2

theorem check_eq (t : Tree) : check t = Check.node t fun c => check c.tree := by
  rw [check]

namespace Checker

/-- The outcome of a check from a given state: the type that was found, or
    what was missing, and the state in any case. -/
def run (t : Tree) (s : Checker) : Except Absent Ty × Checker := (check t).run s

end Checker

end Compiscript
