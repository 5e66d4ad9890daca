import Compiscript.Codegen.Stmt

/-!
# Generating Code

Three-address code for a whole tree, put together from the code of its nodes.

`Gen.node` says what to do with one node, given what to do with the smaller
trees; `generate` ties the knot. Nodes for which there is nothing special to do
have their children visited in order.
-/

namespace Compiscript

namespace Gen

/-- What to do with a node of a kind. -/
def tagged (t : Tree) (visit : t.Sub → Gen Value) : Tag → Gen Value
  | ⟨.program, _⟩ => program t visit
  | ⟨.variableDeclaration, _⟩ => declareVariable t visit
  | ⟨.assignment, _⟩ => assignment t visit
  | ⟨.expressionStatement, _⟩ => evaluate t visit
  | ⟨.printStatement, _⟩ => printStatement t visit
  | ⟨.ifStatement, _⟩ => ifStatement t visit
  | ⟨.whileStatement, _⟩ => whileStatement t visit
  | ⟨.returnStatement, _⟩ => returnStatement t visit
  | ⟨.functionDeclaration, _⟩ => declareFunction t visit
  | ⟨.classDeclaration, _⟩ => declareClass t visit
  | ⟨_, some .assignExpr⟩ => assignExpr t visit
  | ⟨_, some .propertyAssignExpr⟩ => propertyAssignExpr t visit
  | ⟨_, some .exprNoAssign⟩ => visitPart visit (t.kid? .conditionalExpr)
  | ⟨_, some .ternaryExpr⟩ => ternary t visit
  | ⟨.logicalOrExpr, _⟩ => disjunction t visit
  | ⟨.logicalAndExpr, _⟩ => conjunction t visit
  | ⟨.equalityExpr, _⟩ => comparison t visit .relationalExpr
  | ⟨.relationalExpr, _⟩ => comparison t visit .additiveExpr
  | ⟨.additiveExpr, _⟩ => arithmetic t visit .multiplicativeExpr
  | ⟨.multiplicativeExpr, _⟩ => arithmetic t visit .unaryExpr
  | ⟨.unaryExpr, _⟩ => unary t visit
  | ⟨.primaryExpr, _⟩ => primary t visit
  | ⟨.literalExpr, _⟩ => literal t
  | ⟨.leftHandSide, _⟩ => chain t visit
  | ⟨_, some .identifierExpr⟩ => identifier t
  | ⟨_, some .newExpr⟩ => newObject t visit
  | ⟨_, some .thisExpr⟩ => return .text "this"
  | _ => visitAll visit

/-- The code of one node. Tokens have none. -/
def node (t : Tree) (visit : t.Sub → Gen Value) : Gen Value :=
  match t with
  | .node tag start children => tagged (.node tag start children) visit tag
  | _ => return .none

end Gen

/-- The code of a tree. -/
def generate (t : Tree) : Gen Value := Gen.node t fun c => generate c.tree
termination_by sizeOf t
decreasing_by exact c.2

theorem generate_eq (t : Tree) : generate t = Gen.node t fun c => generate c.tree := by
  rw [generate]

namespace Generator

/-- The outcome for a tree from a given state: the value of the tree, or what
    was missing, and the state in any case. -/
def run (t : Tree) (s : Generator) : Except Absent Value × Generator := (generate t).run s

end Generator

end Compiscript
