import Compiscript.Token

/-!
# The Grammar

The language as data: which rules there are and what each of them may expand
to.

A rule has one or more alternatives, and an alternative is a list of items: a
token, one token out of several, another rule, or a group that is optional,
repeated or a choice. Alternatives may carry a label, which then names the
tree in place of the rule.

Order matters twice. Alternatives are numbered as they stand here, and of two
that both fit the lower number is taken; so `x = e;` is an `assignment` and
not an expression statement, though it could be either.
-/

namespace Compiscript

/-- The rules of the grammar. -/
inductive Rule where
  | program
  | statement
  | block
  | variableDeclaration
  | constantDeclaration
  | typeMark
  | initializer
  | assignment
  | expressionStatement
  | printStatement
  | ifStatement
  | whileStatement
  | doWhileStatement
  | forStatement
  | foreachStatement
  | breakStatement
  | continueStatement
  | returnStatement
  | tryCatchStatement
  | switchStatement
  | switchCase
  | defaultCase
  | functionDeclaration
  | parameters
  | parameter
  | classDeclaration
  | classMember
  | expression
  | assignmentExpr
  | conditionalExpr
  | logicalOrExpr
  | logicalAndExpr
  | equalityExpr
  | relationalExpr
  | additiveExpr
  | multiplicativeExpr
  | unaryExpr
  | primaryExpr
  | literalExpr
  | leftHandSide
  | primaryAtom
  | suffixOp
  | arguments
  | arrayLiteral
  | typeExpr
  | baseType
deriving DecidableEq, Repr, Inhabited

namespace Rule

/-- The number of a rule, in the order of the grammar. -/
def index (r : Rule) : Nat := r.ctorIdx

/-- All rules in order. -/
def all : List Rule :=
  [.program, .statement, .block, .variableDeclaration, .constantDeclaration, .typeMark,
   .initializer, .assignment, .expressionStatement, .printStatement, .ifStatement,
   .whileStatement, .doWhileStatement, .forStatement, .foreachStatement, .breakStatement,
   .continueStatement, .returnStatement, .tryCatchStatement, .switchStatement, .switchCase,
   .defaultCase, .functionDeclaration, .parameters, .parameter, .classDeclaration, .classMember,
   .expression, .assignmentExpr, .conditionalExpr, .logicalOrExpr, .logicalAndExpr,
   .equalityExpr, .relationalExpr, .additiveExpr, .multiplicativeExpr, .unaryExpr, .primaryExpr,
   .literalExpr, .leftHandSide, .primaryAtom, .suffixOp, .arguments, .arrayLiteral, .typeExpr,
   .baseType]

/-- The name of a rule. -/
def name : Rule → String
  | .program => "program"
  | .statement => "statement"
  | .block => "block"
  | .variableDeclaration => "variableDeclaration"
  | .constantDeclaration => "constantDeclaration"
  | .typeMark => "typeAnnotation"
  | .initializer => "initializer"
  | .assignment => "assignment"
  | .expressionStatement => "expressionStatement"
  | .printStatement => "printStatement"
  | .ifStatement => "ifStatement"
  | .whileStatement => "whileStatement"
  | .doWhileStatement => "doWhileStatement"
  | .forStatement => "forStatement"
  | .foreachStatement => "foreachStatement"
  | .breakStatement => "breakStatement"
  | .continueStatement => "continueStatement"
  | .returnStatement => "returnStatement"
  | .tryCatchStatement => "tryCatchStatement"
  | .switchStatement => "switchStatement"
  | .switchCase => "switchCase"
  | .defaultCase => "defaultCase"
  | .functionDeclaration => "functionDeclaration"
  | .parameters => "parameters"
  | .parameter => "parameter"
  | .classDeclaration => "classDeclaration"
  | .classMember => "classMember"
  | .expression => "expression"
  | .assignmentExpr => "assignmentExpr"
  | .conditionalExpr => "conditionalExpr"
  | .logicalOrExpr => "logicalOrExpr"
  | .logicalAndExpr => "logicalAndExpr"
  | .equalityExpr => "equalityExpr"
  | .relationalExpr => "relationalExpr"
  | .additiveExpr => "additiveExpr"
  | .multiplicativeExpr => "multiplicativeExpr"
  | .unaryExpr => "unaryExpr"
  | .primaryExpr => "primaryExpr"
  | .literalExpr => "literalExpr"
  | .leftHandSide => "leftHandSide"
  | .primaryAtom => "primaryAtom"
  | .suffixOp => "suffixOp"
  | .arguments => "arguments"
  | .arrayLiteral => "arrayLiteral"
  | .typeExpr => "type"
  | .baseType => "baseType"

/-- The rule with a given name. -/
def ofName? (s : String) : Option Rule := all.find? (·.name == s)

end Rule

/-- Names of alternatives. -/
inductive Label where
  | assignExpr
  | propertyAssignExpr
  | exprNoAssign
  | ternaryExpr
  | identifierExpr
  | newExpr
  | thisExpr
  | callExpr
  | indexExpr
  | propertyAccessExpr
deriving DecidableEq, Repr, Inhabited

namespace Label

/-- The name of a label. -/
def name : Label → String
  | .assignExpr => "AssignExpr"
  | .propertyAssignExpr => "PropertyAssignExpr"
  | .exprNoAssign => "ExprNoAssign"
  | .ternaryExpr => "TernaryExpr"
  | .identifierExpr => "IdentifierExpr"
  | .newExpr => "NewExpr"
  | .thisExpr => "ThisExpr"
  | .callExpr => "CallExpr"
  | .indexExpr => "IndexExpr"
  | .propertyAccessExpr => "PropertyAccessExpr"

end Label

/-- What an alternative is made of. -/
inductive Item where
  /-- One token of this kind. -/
  | token (k : Kind)
  /-- One token of any of these kinds. -/
  | oneOf (ks : List Kind)
  /-- A text of a rule. -/
  | rule (r : Rule)
  /-- The items once or not at all. -/
  | optional (body : List Item)
  /-- The items any number of times. -/
  | repeated (body : List Item)
  /-- Exactly one of several lists of items. -/
  | choice (alts : List (List Item))
deriving Repr

/-- One way to expand a rule. -/
structure Expansion where
  label : Option Label
  body : List Item
deriving Repr

namespace Expansion

/-- An alternative without a label. -/
def plain (body : List Item) : Expansion := ⟨none, body⟩

/-- An alternative that names its tree. -/
def named (l : Label) (body : List Item) : Expansion := ⟨some l, body⟩

end Expansion

section Production

open Item Expansion

/-- A left-associative chain: operands of one rule with an operator of a set
    between any two. -/
def chain (operand : Rule) (operator : Item) : List Expansion :=
  [plain [rule operand, repeated [operator, rule operand]]]

/-- A list of one or more items of a rule, separated by commas. -/
def commaSeparated (r : Rule) : List Item :=
  [rule r, repeated [token .comma, rule r]]

/-- The alternatives of each rule, in order of preference. -/
def production : Rule → List Expansion
  | .program => [plain [repeated [rule .statement], token .endOfInput]]
  | .statement =>
    [.variableDeclaration, .constantDeclaration, .assignment, .functionDeclaration,
      .classDeclaration, .expressionStatement, .printStatement, .block, .ifStatement,
      .whileStatement, .doWhileStatement, .forStatement, .foreachStatement,
      .tryCatchStatement, .switchStatement, .breakStatement, .continueStatement,
      .returnStatement].map fun r => plain [rule r]
  | .block => [plain [token .openBrace, repeated [rule .statement], token .closeBrace]]
  | .variableDeclaration =>
    [plain [oneOf [.kwLet, .kwVar], token .identifier, optional [rule .typeMark],
      optional [rule .initializer], token .semicolon]]
  | .constantDeclaration =>
    [plain [token .kwConst, token .identifier, optional [rule .typeMark], token .assign,
      rule .expression, token .semicolon]]
  | .typeMark => [plain [token .colon, rule .typeExpr]]
  | .initializer => [plain [token .assign, rule .expression]]
  | .assignment =>
    [plain [token .identifier, token .assign, rule .expression, token .semicolon],
      plain [rule .expression, token .dot, token .identifier, token .assign, rule .expression,
        token .semicolon]]
  | .expressionStatement => [plain [rule .expression, token .semicolon]]
  | .printStatement =>
    [plain [token .kwPrint, token .openParen, rule .expression, token .closeParen,
      token .semicolon]]
  | .ifStatement =>
    [plain [token .kwIf, token .openParen, rule .expression, token .closeParen, rule .block,
      optional [token .kwElse, rule .block]]]
  | .whileStatement =>
    [plain [token .kwWhile, token .openParen, rule .expression, token .closeParen,
      rule .block]]
  | .doWhileStatement =>
    [plain [token .kwDo, rule .block, token .kwWhile, token .openParen, rule .expression,
      token .closeParen, token .semicolon]]
  | .forStatement =>
    [plain [token .kwFor, token .openParen,
      choice [[rule .variableDeclaration], [rule .assignment], [token .semicolon]],
      optional [rule .expression], token .semicolon, optional [rule .expression],
      token .closeParen, rule .block]]
  | .foreachStatement =>
    [plain [token .kwForeach, token .openParen, token .identifier, token .kwIn,
      rule .expression, token .closeParen, rule .block]]
  | .breakStatement => [plain [token .kwBreak, token .semicolon]]
  | .continueStatement => [plain [token .kwContinue, token .semicolon]]
  | .returnStatement =>
    [plain [token .kwReturn, optional [rule .expression], token .semicolon]]
  | .tryCatchStatement =>
    [plain [token .kwTry, rule .block, token .kwCatch, token .openParen, token .identifier,
      token .closeParen, rule .block]]
  | .switchStatement =>
    [plain [token .kwSwitch, token .openParen, rule .expression, token .closeParen,
      token .openBrace, repeated [rule .switchCase], optional [rule .defaultCase],
      token .closeBrace]]
  | .switchCase =>
    [plain [token .kwCase, rule .expression, token .colon, repeated [rule .statement]]]
  | .defaultCase => [plain [token .kwDefault, token .colon, repeated [rule .statement]]]
  | .functionDeclaration =>
    [plain [token .kwFunction, token .identifier, token .openParen,
      optional [rule .parameters], token .closeParen,
      optional [token .colon, rule .typeExpr], rule .block]]
  | .parameters => [plain (commaSeparated .parameter)]
  | .parameter => [plain [token .identifier, optional [token .colon, rule .typeExpr]]]
  | .classDeclaration =>
    [plain [token .kwClass, token .identifier, optional [token .colon, token .identifier],
      token .openBrace, repeated [rule .classMember], token .closeBrace]]
  | .classMember =>
    [plain [rule .functionDeclaration], plain [rule .variableDeclaration],
      plain [rule .constantDeclaration]]
  | .expression => [plain [rule .assignmentExpr]]
  | .assignmentExpr =>
    [named .assignExpr [rule .leftHandSide, token .assign, rule .assignmentExpr],
      named .propertyAssignExpr [rule .leftHandSide, token .dot, token .identifier,
        token .assign, rule .assignmentExpr],
      named .exprNoAssign [rule .conditionalExpr]]
  | .conditionalExpr =>
    [named .ternaryExpr [rule .logicalOrExpr,
      optional [token .question, rule .expression, token .colon, rule .expression]]]
  | .logicalOrExpr => chain .logicalAndExpr (token .orElse)
  | .logicalAndExpr => chain .equalityExpr (token .andAlso)
  | .equalityExpr => chain .relationalExpr (oneOf [.equals, .differs])
  | .relationalExpr => chain .additiveExpr (oneOf [.less, .lessEq, .greater, .greaterEq])
  | .additiveExpr => chain .multiplicativeExpr (oneOf [.plus, .minus])
  | .multiplicativeExpr => chain .unaryExpr (oneOf [.times, .divide, .modulo])
  | .unaryExpr => [plain [oneOf [.minus, .bang], rule .unaryExpr], plain [rule .primaryExpr]]
  | .primaryExpr =>
    [plain [rule .literalExpr], plain [rule .leftHandSide],
      plain [token .openParen, rule .expression, token .closeParen]]
  | .literalExpr =>
    [plain [token .literal], plain [rule .arrayLiteral], plain [token .kwNull],
      plain [token .kwTrue], plain [token .kwFalse]]
  | .leftHandSide => [plain [rule .primaryAtom, repeated [rule .suffixOp]]]
  | .primaryAtom =>
    [named .identifierExpr [token .identifier],
      named .newExpr [token .kwNew, token .identifier, token .openParen,
        optional [rule .arguments], token .closeParen],
      named .thisExpr [token .kwThis]]
  | .suffixOp =>
    [named .callExpr [token .openParen, optional [rule .arguments], token .closeParen],
      named .indexExpr [token .openBracket, rule .expression, token .closeBracket],
      named .propertyAccessExpr [token .dot, token .identifier]]
  | .arguments => [plain (commaSeparated .expression)]
  | .arrayLiteral =>
    [plain [token .openBracket, optional (commaSeparated .expression), token .closeBracket]]
  | .typeExpr =>
    [plain [rule .baseType, repeated [token .openBracket, token .closeBracket]]]
  | .baseType => [plain [oneOf [.kwBoolean, .kwInteger, .kwString, .identifier]]]

end Production

/-- The name of a node of the tree: the rule it was made by and, once that is
    known, the label of the alternative. -/
structure Tag where
  rule : Rule
  label : Option Label
deriving DecidableEq, Repr, Inhabited

namespace Tag

/-- The label's name, or the rule's with a capital. -/
def name (t : Tag) : String :=
  match t.label with
  | some l => l.name
  | none => t.rule.name.capitalize

end Tag

end Compiscript
