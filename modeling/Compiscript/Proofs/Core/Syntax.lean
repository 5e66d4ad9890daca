import Compiscript.Proofs.Tac.Machine
import Compiscript.Tree
import Mathlib.Data.List.Forall2

/-!
# The Core of the Language

Programs made of declarations with a value, assignments to variables, printing,
blocks, branches and loops, over expressions without calls, members, indices and
assignments.

A program of the core is a plain syntax tree of its own. `Core.phrase?` finds it
in a parse tree from the bottom up: each node is put together from what its
children came to, and a node that is not part of the core comes to nothing.
-/

namespace Compiscript.Core

/-- Expressions of the core. -/
inductive Expr where
  | int (n : Nat)
  | bool (b : Bool)
  | var (x : String)
  | minus (e : Expr)
  | bang (e : Expr)
  | binary (op : Binary) (a b : Expr)
  | andAlso (a b : Expr)
  | orElse (a b : Expr)
  | question (c a b : Expr)
deriving DecidableEq, Repr, Inhabited

/-- Statements of the core. The parts of a branch and the body of a loop are
    blocks, as is the body of `block`. -/
inductive Stmt where
  | skip
  | seq (a b : Stmt)
  | declare (x : String) (e : Expr)
  | assign (x : String) (e : Expr)
  | print (e : Expr)
  | block (s : Stmt)
  | branch (c : Expr) (a b : Stmt)
  | loop (c : Expr) (s : Stmt)
deriving DecidableEq, Repr, Inhabited

/-- What a part of a parse tree came to. -/
inductive Phrase where
  | token (t : Token)
  /-- An expression, made by a rule. -/
  | expr (r : Rule) (e : Expr)
  /-- The initial value of a variable. -/
  | init (e : Expr)
  /-- A written type or a part of one, made by a rule. -/
  | mark (r : Rule)
  /-- Statements, made by a rule. -/
  | stmt (r : Rule) (s : Stmt)
deriving DecidableEq, Repr, Inhabited

/-- The rule that a part was made by; tokens are made by none. -/
def Phrase.rule? : Phrase → Option Rule
  | .token _ => none
  | .expr r _ | .mark r | .stmt r _ => some r
  | .init _ => some .initializer

/-- The operators that stand in a chain made by a rule. -/
def operator? (r : Rule) (text : String) : Option Binary :=
  match r, text with
  | .equalityExpr, "==" => some (.compare .eq)
  | .equalityExpr, "!=" => some (.compare .ne)
  | .relationalExpr, "<" => some (.compare .lt)
  | .relationalExpr, "<=" => some (.compare .le)
  | .relationalExpr, ">" => some (.compare .gt)
  | .relationalExpr, ">=" => some (.compare .ge)
  | .additiveExpr, "+" => some .add
  | .additiveExpr, "-" => some .sub
  | .multiplicativeExpr, "*" => some .mul
  | .multiplicativeExpr, "/" => some .div
  | .multiplicativeExpr, "%" => some .mod
  | _, _ => none

/-- The rest of a chain made by rule `r`, whose operands are made by rule
    `operand`: operators, each with the operand behind it. -/
def links? (r operand : Rule) : List Phrase → Option (List (Binary × Expr))
  | [] => some []
  | .token t :: .expr r' e :: rest =>
    if r' = operand then
      (operator? r t.text).bind fun op => (links? r operand rest).map ((op, e) :: ·)
    else none
  | _ => none

/-- A chain of operators, grouped to the left. -/
def Expr.chain (e : Expr) (links : List (Binary × Expr)) : Expr :=
  links.foldl (fun e l => .binary l.1 e l.2) e

/-- An expression with a sign. -/
def signed? (t : Token) (e : Expr) : Option Expr :=
  match t.text with
  | "-" => some (.minus e)
  | "!" => some (.bang e)
  | _ => none

/-- A literal: a run of digits or a truth value. -/
def literalOf? (t : Token) : Option Expr :=
  if t.kind = .literal then (decimal? t.text.toList).map .int
  else
    match t.text with
    | "true" => some (.bool true)
    | "false" => some (.bool false)
    | _ => none

/-- A name. -/
def nameOf? (t : Token) : Option String :=
  if t.kind = .identifier ∧ Tac.IsVariable t.text then some t.text else none

/-- Statements up to a closing token. -/
def statements? : List Phrase → Option Stmt
  | [.token _] => some .skip
  | .stmt .statement s :: rest => (statements? rest).map (.seq s)
  | _ => none

/-- What a node that is an expression comes to. -/
def assembleExpr : Tag → List Phrase → Option Expr
  | ⟨.expression, none⟩, [.expr .assignmentExpr e] => some e
  | ⟨.assignmentExpr, some .exprNoAssign⟩, [.expr .conditionalExpr e] => some e
  | ⟨.conditionalExpr, some .ternaryExpr⟩, [.expr .logicalOrExpr e] => some e
  | ⟨.conditionalExpr, some .ternaryExpr⟩,
    [.expr .logicalOrExpr c, .token _, .expr .expression a, .token _, .expr .expression b] =>
    some (.question c a b)
  | ⟨.logicalOrExpr, none⟩, [.expr .logicalAndExpr e] => some e
  | ⟨.logicalOrExpr, none⟩, [.expr .logicalAndExpr a, .token _, .expr .logicalAndExpr b] =>
    some (.orElse a b)
  | ⟨.logicalAndExpr, none⟩, [.expr .equalityExpr e] => some e
  | ⟨.logicalAndExpr, none⟩, [.expr .equalityExpr a, .token _, .expr .equalityExpr b] =>
    some (.andAlso a b)
  | ⟨.equalityExpr, none⟩, .expr .relationalExpr e :: rest =>
    (links? .equalityExpr .relationalExpr rest).map (.chain e)
  | ⟨.relationalExpr, none⟩, .expr .additiveExpr e :: rest =>
    (links? .relationalExpr .additiveExpr rest).map (.chain e)
  | ⟨.additiveExpr, none⟩, .expr .multiplicativeExpr e :: rest =>
    (links? .additiveExpr .multiplicativeExpr rest).map (.chain e)
  | ⟨.multiplicativeExpr, none⟩, .expr .unaryExpr e :: rest =>
    (links? .multiplicativeExpr .unaryExpr rest).map (.chain e)
  | ⟨.unaryExpr, none⟩, [.token t, .expr .unaryExpr e] => signed? t e
  | ⟨.unaryExpr, none⟩, [.expr .primaryExpr e] => some e
  | ⟨.primaryExpr, none⟩, [.expr .literalExpr e] => some e
  | ⟨.primaryExpr, none⟩, [.expr .leftHandSide e] => some e
  | ⟨.primaryExpr, none⟩, [.token _, .expr .expression e, .token _] => some e
  | ⟨.literalExpr, none⟩, [.token t] => literalOf? t
  | ⟨.leftHandSide, none⟩, [.expr .primaryAtom e] => some e
  | ⟨.primaryAtom, some .identifierExpr⟩, [.token t] => (nameOf? t).map .var
  | _, _ => none

/-- A declaration, without the keyword in front of it. -/
def declaration? (t : Token) : List Phrase → Option Stmt
  | [.init e, .token _] => (nameOf? t).map (.declare · e)
  | [.mark .typeMark, .init e, .token _] => (nameOf? t).map (.declare · e)
  | _ => none

/-- What a node that is a statement comes to. -/
def assembleStmt : Tag → List Phrase → Option Stmt
  | ⟨.variableDeclaration, none⟩, .token k :: .token t :: rest =>
    if k.kind = .identifier then none else declaration? t rest
  | ⟨.assignment, none⟩, [.token t, .token _, .expr .expression e, .token _] =>
    (nameOf? t).map (.assign · e)
  | ⟨.printStatement, none⟩, [.token _, .token _, .expr .expression e, .token _, .token _] =>
    some (.print e)
  | ⟨.block, none⟩, .token _ :: rest => statements? rest
  | ⟨.ifStatement, none⟩, [.token _, .token _, .expr .expression c, .token _, .stmt .block a] =>
    some (.branch c a .skip)
  | ⟨.ifStatement, none⟩,
    [.token _, .token _, .expr .expression c, .token _, .stmt .block a, .token _, .stmt .block b] =>
    some (.branch c a b)
  | ⟨.whileStatement, none⟩, [.token _, .token _, .expr .expression c, .token _, .stmt .block s] =>
    some (.loop c s)
  | ⟨.statement, none⟩, [.stmt .block s] => some (.block s)
  | ⟨.statement, none⟩, [.stmt .variableDeclaration s] => some s
  | ⟨.statement, none⟩, [.stmt .assignment s] => some s
  | ⟨.statement, none⟩, [.stmt .printStatement s] => some s
  | ⟨.statement, none⟩, [.stmt .ifStatement s] => some s
  | ⟨.statement, none⟩, [.stmt .whileStatement s] => some s
  | ⟨.program, none⟩, parts => statements? parts
  | _, _ => none

/-- What a node comes to. -/
def assemble : Tag → List Phrase → Option Phrase
  | ⟨.typeMark, _⟩, _ => some (.mark .typeMark)
  | ⟨.typeExpr, _⟩, _ => some (.mark .typeExpr)
  | ⟨.baseType, _⟩, _ => some (.mark .baseType)
  | ⟨.initializer, _⟩, [.token _, .expr .expression e] => some (.init e)
  | tag, parts =>
    match assembleExpr tag parts with
    | some e => some (.expr tag.rule e)
    | none => (assembleStmt tag parts).map (.stmt tag.rule)

mutual

/-- What a parse tree comes to. -/
def phrase? : Tree → Option Phrase
  | .node tag _ children => (phrases? children).bind (assemble tag)
  | .leaf t => some (.token t)
  | .bad _ => none

/-- What several parse trees come to. -/
def phrases? : List Tree → Option (List Phrase)
  | [] => some []
  | t :: rest => (phrase? t).bind fun p => (phrases? rest).map (p :: ·)

end

lemma phrases?_eq_some {ts : List Tree} {ps : List Phrase} (h : phrases? ts = some ps) :
    List.Forall₂ (fun t p => phrase? t = some p) ts ps := by
  induction ts generalizing ps with
  | nil =>
    cases h
    exact .nil
  | cons t ts ih =>
    obtain ⟨p, hp, h⟩ := Option.bind_eq_some_iff.1 h
    obtain ⟨ps, hps, rfl⟩ := Option.map_eq_some_iff.1 h
    exact .cons hp (ih hps)

variable {tag : Tag} {p : Phrase} {parts : List Phrase} {t : Tree}

/-- A node is put together from what its children come to. -/
lemma exists_parts {r : Rule} (h : phrase? t = some p) (hp : p.rule? = some r) :
    ∃ tag start cs parts, t = .node tag start cs ∧
      List.Forall₂ (fun t p => phrase? t = some p) cs parts ∧ assemble tag parts = some p := by
  cases t with
  | node tag start cs =>
    obtain ⟨parts, hpts, h⟩ := Option.bind_eq_some_iff.1 h
    exact ⟨tag, start, cs, parts, rfl, phrases?_eq_some hpts, h⟩
  | leaf t =>
    cases h
    cases hp
  | bad t => cases h

/-- A node comes to something made by its rule. -/
lemma assemble_rule (h : assemble tag parts = some p) : p.rule? = some tag.rule := by
  unfold assemble at h
  split at h
  iterate 4
    injection h with h
    rw [← h]
    rfl
  split at h
  · injection h with h
    rw [← h]
    rfl
  · rcases Option.map_eq_some_iff.1 h with ⟨s, _, rfl⟩
    rfl

lemma assembleExpr_of_assemble {r : Rule} {e : Expr}
    (h : assemble tag parts = some (.expr r e)) : assembleExpr tag parts = some e := by
  unfold assemble at h
  split at h
  iterate 4 cases h
  split at h
  · rename_i heq
    injection h with h
    injection h with _ h
    rw [heq, h]
  · obtain ⟨s, _, hs⟩ := Option.map_eq_some_iff.1 h
    cases hs

/-- A tree was made by the rule of what it comes to. -/
lemma isOf_of_phrase (h : phrase? t = some p) (r : Rule) :
    t.isOf r = decide (p.rule? = some r) := by
  cases t with
  | node tag start children =>
    obtain ⟨parts, -, h⟩ := Option.bind_eq_some_iff.1 h
    rw [assemble_rule h, Tree.isOf]
    simp [beq_eq_decide]
  | leaf t =>
    cases h
    rfl
  | bad t => cases h

lemma eq_leaf_of_phrase {tok : Token} (h : phrase? t = some (.token tok)) : t = .leaf tok := by
  cases t with
  | node tag start children =>
    obtain ⟨parts, -, h⟩ := Option.bind_eq_some_iff.1 h
    cases assemble_rule h
  | leaf t =>
    cases Phrase.token.inj (Option.some.inj h)
    rfl
  | bad t => cases h

/-- The program in a parse tree, if it is one of the core. -/
def program? (t : Tree) : Option Stmt :=
  match phrase? t with
  | some (.stmt .program s) => some s
  | _ => none

end Compiscript.Core
