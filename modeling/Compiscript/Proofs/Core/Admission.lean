import Compiscript.Proofs.Core.Refinement
import Compiscript.Proofs.Parse.Sound

/-!
# Which Programs Are in the Core

A program is in the core if its tree has no other nodes than those of the core.

`admits` looks at one node after the other and never at how they fit together;
that they do is what the grammar says. So a tree that the grammar allows and
that has only nodes of the core comes to a program.

## Theorems

* `Core.code_implements_source`: The code of such a program does what the program says.
-/

namespace Compiscript.Core

open List

/-- A literal that is an integer or a truth value. -/
def isPlainLiteral : Tree → Bool
  | .leaf t =>
    t.kind = .kwTrue || t.kind = .kwFalse || t.kind = .literal && t.text.toList.all Char.isDigit
  | _ => false

/-- Nodes of the core: declarations with a value, assignments to variables, printing, blocks,
    branches and loops, and expressions without assignments, calls, members and indices. -/
def allows (tag : Tag) (children : List Tree) : Bool :=
  match tag.rule with
  | .program | .statement | .block | .printStatement | .ifStatement | .whileStatement => true
  | .variableDeclaration => children.any (·.isOf .initializer)
  | .assignment => !children.any (·.isToken .dot)
  | .typeMark | .typeExpr | .baseType | .initializer => true
  | .expression | .conditionalExpr | .equalityExpr | .relationalExpr | .additiveExpr => true
  | .multiplicativeExpr | .unaryExpr | .primaryExpr | .leftHandSide => true
  | .assignmentExpr => tag.label = some .exprNoAssign
  | .logicalOrExpr | .logicalAndExpr => children.length ≤ 3
  | .literalExpr => children.all isPlainLiteral
  | .primaryAtom => tag.label = some .identifierExpr
  | _ => false

mutual

/-- Trees with nodes of the core only. -/
def admits : Tree → Bool
  | .node tag _ children => allows tag children && admitsAll children
  | _ => true

/-- Several trees with nodes of the core only. -/
def admitsAll : List Tree → Bool
  | [] => true
  | t :: rest => admits t && admitsAll rest

end

/-- Rules whose trees are expressions. -/
def isExprRule : Rule → Bool
  | .expression | .assignmentExpr | .conditionalExpr | .logicalOrExpr | .logicalAndExpr => true
  | .equalityExpr | .relationalExpr | .additiveExpr | .multiplicativeExpr | .unaryExpr => true
  | .primaryExpr | .literalExpr | .leftHandSide | .primaryAtom => true
  | _ => false

/-- Rules whose trees are statements. -/
def isStmtRule : Rule → Bool
  | .program | .statement | .block | .variableDeclaration | .assignment => true
  | .printStatement | .ifStatement | .whileStatement => true
  | _ => false

/-- What the trees of a rule come to. -/
inductive Made : Rule → Phrase → Prop where
  | expr {r : Rule} (e : Expr) (h : isExprRule r = true) : Made r (.expr r e)
  | stmt {r : Rule} (s : Stmt) (h : isStmtRule r = true) : Made r (.stmt r s)
  | init (e : Expr) : Made .initializer (.init e)
  | mark {r : Rule} (h : r = .typeMark ∨ r = .typeExpr ∨ r = .baseType) : Made r (.mark r)

variable {r : Rule} {p : Phrase}

lemma not_isStmtRule (h : isExprRule r = true) : isStmtRule r = false := by
  cases r <;> first | rfl | cases h

lemma Made.exists_expr (h : Made r p) (hr : isExprRule r = true) : ∃ e, p = .expr r e := by
  cases h with
  | expr e _ => exact ⟨e, rfl⟩
  | stmt s hs => rw [not_isStmtRule hr] at hs; cases hs
  | init e => cases hr
  | mark hm => rcases hm with rfl | rfl | rfl <;> cases hr

lemma Made.exists_stmt (h : Made r p) (hr : isStmtRule r = true) : ∃ s, p = .stmt r s := by
  cases h with
  | expr e he => rw [not_isStmtRule he] at hr; cases hr
  | stmt s _ => exact ⟨s, rfl⟩
  | init e => cases hr
  | mark hm => rcases hm with rfl | rfl | rfl <;> cases hr

lemma Made.exists_init (h : Made .initializer p) : ∃ e, p = .init e := by
  cases h with
  | expr _ hr => cases hr
  | stmt _ hr => cases hr
  | init e => exact ⟨e, rfl⟩
  | mark hm => rcases hm with hm | hm | hm <;> cases hm

lemma Made.eq_mark (h : Made .typeMark p) : p = .mark .typeMark := by
  cases h with
  | expr _ hr => cases hr
  | stmt _ hr => cases hr
  | mark _ => rfl

/-- Rules that no part of the core is made by. -/
def isForeign (r : Rule) : Bool :=
  !(isExprRule r || isStmtRule r || r = .initializer || r = .typeMark || r = .typeExpr ||
    r = .baseType)

lemma not_made (hr : isForeign r = true) : ¬ Made r p := by
  intro h
  cases h with
  | expr _ h => simp [isForeign, h] at hr
  | stmt _ h => simp [isForeign, h] at hr
  | init _ => cases hr
  | mark h => rcases h with rfl | rfl | rfl <;> cases hr

/-- What the trees of a list of items come to. -/
inductive Shapes : List Item → List Phrase → Prop where
  | nil : Shapes [] []
  | token {k : Kind} {t : Token} {rest : List Item} {ps : List Phrase} (ht : t.Lexed)
      (hk : t.kind = k) (h : Shapes rest ps) : Shapes (.token k :: rest) (.token t :: ps)
  | oneOf {ks : List Kind} {t : Token} {rest : List Item} {ps : List Phrase} (ht : t.Lexed)
      (hk : t.kind ∈ ks) (h : Shapes rest ps) : Shapes (.oneOf ks :: rest) (.token t :: ps)
  | rule {r : Rule} {p : Phrase} {rest : List Item} {ps : List Phrase} (hp : Made r p)
      (h : Shapes rest ps) : Shapes (.rule r :: rest) (p :: ps)
  | skip {body rest : List Item} {ps : List Phrase} (h : Shapes rest ps) :
      Shapes (.optional body :: rest) ps
  | take {body rest : List Item} {ps : List Phrase} (h : Shapes (body ++ rest) ps) :
      Shapes (.optional body :: rest) ps
  | stop {body rest : List Item} {ps : List Phrase} (h : Shapes rest ps) :
      Shapes (.repeated body :: rest) ps
  | more {body rest : List Item} {ps : List Phrase}
      (h : Shapes (body ++ .repeated body :: rest) ps) : Shapes (.repeated body :: rest) ps
  | choice {alts : List (List Item)} {body rest : List Item} {ps : List Phrase}
      (hb : body ∈ alts) (h : Shapes (body ++ rest) ps) : Shapes (.choice alts :: rest) ps

namespace Shapes

variable {k : Kind} {ks : List Kind} {r : Rule} {body rest : List Item} {ps : List Phrase}

lemma of_nil (h : Shapes [] ps) : ps = [] := by
  cases h
  rfl

lemma of_token (h : Shapes (.token k :: rest) ps) :
    ∃ t ps', ps = .token t :: ps' ∧ t.Lexed ∧ t.kind = k ∧ Shapes rest ps' := by
  cases h with
  | token ht hk h => exact ⟨_, _, rfl, ht, hk, h⟩

lemma of_oneOf (h : Shapes (.oneOf ks :: rest) ps) :
    ∃ t ps', ps = .token t :: ps' ∧ t.Lexed ∧ t.kind ∈ ks ∧ Shapes rest ps' := by
  cases h with
  | oneOf ht hk h => exact ⟨_, _, rfl, ht, hk, h⟩

lemma of_rule (h : Shapes (.rule r :: rest) ps) :
    ∃ p ps', ps = p :: ps' ∧ Made r p ∧ Shapes rest ps' := by
  cases h with
  | rule hp h => exact ⟨_, _, rfl, hp, h⟩

lemma of_expr (h : Shapes (.rule r :: rest) ps) (hr : isExprRule r = true) :
    ∃ e ps', ps = .expr r e :: ps' ∧ Shapes rest ps' := by
  obtain ⟨p, ps', rfl, hp, hrs⟩ := h.of_rule
  obtain ⟨e, rfl⟩ := hp.exists_expr hr
  exact ⟨e, ps', rfl, hrs⟩

lemma of_stmt (h : Shapes (.rule r :: rest) ps) (hr : isStmtRule r = true) :
    ∃ s ps', ps = .stmt r s :: ps' ∧ Shapes rest ps' := by
  obtain ⟨p, ps', rfl, hp, hrs⟩ := h.of_rule
  obtain ⟨s, rfl⟩ := hp.exists_stmt hr
  exact ⟨s, ps', rfl, hrs⟩

lemma of_optional (h : Shapes (.optional body :: rest) ps) :
    Shapes rest ps ∨ Shapes (body ++ rest) ps := by
  cases h with
  | skip h => exact .inl h
  | take h => exact .inr h

lemma of_repeated (h : Shapes (.repeated body :: rest) ps) :
    Shapes rest ps ∨ Shapes (body ++ .repeated body :: rest) ps := by
  cases h with
  | stop h => exact .inl h
  | more h => exact .inr h

end Shapes

variable {t : Token} {k : Kind} {ps : List Phrase} {r operand : Rule} {ks : List Kind}
  {e : Expansion} {cs : List Tree} {parts : List Phrase} {tag : Tag}

lemma nameOf?_of_lexed (h : t.Lexed) (hk : t.kind = .identifier) :
    nameOf? t = some t.text := if_pos ⟨hk, Tac.isVariable_of_lexed h hk⟩

lemma exists_statements
    (h : Shapes [.repeated [.rule .statement], .token k] ps) : ∃ s, statements? ps = some s := by
  induction hlen : ps.length using Nat.strong_induction_on generalizing ps with
  | _ n ih =>
    rcases h.of_repeated with h | h
    · obtain ⟨t, ps, rfl, -, -, h⟩ := h.of_token
      cases h.of_nil
      exact ⟨.skip, rfl⟩
    · obtain ⟨s, ps, rfl, hrs⟩ := Shapes.of_stmt (r := .statement) h rfl
      obtain ⟨s', hs'⟩ := ih ps.length (by rw [← hlen]; exact Nat.lt_succ_self _) hrs rfl
      refine ⟨.seq s s', ?_⟩
      rw [statements?, hs']
      rfl

lemma exists_links (hopd : isExprRule operand = true)
    (hop : ∀ t : Token, t.Lexed → t.kind ∈ ks → ∃ op, operator? r t.text = some op)
    (h : Shapes [.repeated [.oneOf ks, .rule operand]] ps) :
    ∃ links, links? r operand ps = some links := by
  induction hlen : ps.length using Nat.strong_induction_on generalizing ps with
  | _ n ih =>
    rcases h.of_repeated with h | h
    · cases h.of_nil
      exact ⟨[], rfl⟩
    · obtain ⟨t, ps', rfl, ht, hk, h1⟩ := Shapes.of_oneOf h
      obtain ⟨e, ps, rfl, h2⟩ := Shapes.of_expr (r := operand) h1 hopd
      obtain ⟨op, hop⟩ := hop t ht hk
      obtain ⟨links, hlinks⟩ :=
        ih ps.length (by rw [← hlen]; exact Nat.lt_add_of_pos_right Nat.two_pos) h2 rfl
      refine ⟨(op, e) :: links, ?_⟩
      rw [links?, if_pos rfl, hop, hlinks]
      rfl

/-- A token whose kind is spelled like an operator is one. -/
lemma exists_operator
    (hks : ∀ k ∈ ks, (k.spelling?.bind (operator? r)).isSome = true) (t : Token) (ht : t.Lexed)
    (hk : t.kind ∈ ks) : ∃ op, operator? r t.text = some op := by
  obtain ⟨op, hop⟩ := Option.isSome_iff_exists.1 (hks t.kind hk)
  obtain ⟨s, hs, hop⟩ := Option.bind_eq_some_iff.1 hop
  exact ⟨op, by rw [ht.text_eq hs, hop]⟩

lemma eq_of_shapes_logical (hopd : isExprRule operand = true) (hlen : ps.length ≤ 3)
    (h : Shapes [.rule operand, .repeated [.token k, .rule operand]] ps) :
    (∃ e, ps = [.expr operand e]) ∨ ∃ a t b, ps = [.expr operand a, .token t, .expr operand b] := by
  obtain ⟨a, ps1, rfl, h1⟩ := h.of_expr hopd
  rcases h1.of_repeated with h2 | h2
  · cases h2.of_nil
    exact .inl ⟨a, rfl⟩
  · obtain ⟨t, ps2, rfl, -, -, h3⟩ := Shapes.of_token h2
    obtain ⟨b, ps3, rfl, h4⟩ := Shapes.of_expr (r := operand) h3 hopd
    rcases h4.of_repeated with h5 | h5
    · cases h5.of_nil
      exact .inr ⟨a, t, b, rfl⟩
    · -- A third operand would make the list too long.
      obtain ⟨t', ps4, rfl, -⟩ := Shapes.of_token h5
      simp only [length_cons] at hlen
      omega

lemma Shapes.of_single (h : Shapes [.rule r] ps)
    (hr : isExprRule r = true) : ∃ e, ps = [.expr r e] := by
  obtain ⟨e, ps', rfl, h'⟩ := h.of_expr hr
  cases h'.of_nil
  exact ⟨e, rfl⟩

lemma exists_chain (hopd : isExprRule operand = true)
    (hks : ∀ k ∈ ks, (k.spelling?.bind (operator? r)).isSome = true)
    (h : Shapes [.rule operand, .repeated [.oneOf ks, .rule operand]] ps) :
    ∃ e rest links, ps = .expr operand e :: rest ∧ links? r operand rest = some links := by
  obtain ⟨e, rest, rfl, h'⟩ := h.of_expr hopd
  obtain ⟨links, hlinks⟩ := exists_links hopd (exists_operator hks) h'
  exact ⟨e, rest, links, rfl, hlinks⟩

lemma exists_literalOf (ht : t.Lexed) (hpl : isPlainLiteral (.leaf t) = true) :
    ∃ e, literalOf? t = some e := by
  simp only [isPlainLiteral, Bool.or_eq_true, Bool.and_eq_true, decide_eq_true_eq] at hpl
  rcases hpl with (hk | hk) | ⟨hk, hdig⟩
  · refine ⟨.bool true, ?_⟩
    rw [literalOf?, if_neg (by rw [hk]; decide), ht.text_eq (s := "true") (by rw [hk]; rfl)]
    rfl
  · refine ⟨.bool false, ?_⟩
    rw [literalOf?, if_neg (by rw [hk]; decide), ht.text_eq (s := "false") (by rw [hk]; rfl)]
    rfl
  · have hne : t.text.toList ≠ [] := by
      rcases ht.digits_or_quoted hk with h | h
      · exact h.1
      · intro hnil
        rw [hnil] at h
        cases h
    refine ⟨.int (Nat.ofDigitChars 10 t.text.toList 0), ?_⟩
    rw [literalOf?, if_pos hk, decimal?, hdig, isEmpty_eq_false_iff.2 hne]
    rfl

lemma exists_assembleExpr
    (hr : isExprRule r = true) (he : e ∈ production r) (h : Shapes e.body parts)
    (hcs : phrases? cs = some parts) (hal : allows ⟨r, e.label⟩ cs = true) :
    ∃ x, assembleExpr ⟨r, e.label⟩ parts = some x := by
  have hlen : cs.length = parts.length := (phrases?_eq_some hcs).length_eq
  have hcha {ps : List Phrase} := @exists_chain ps r
  cases r with try cases mem_singleton.1 he
  | expression =>
    obtain ⟨x, rfl⟩ := h.of_single rfl
    exact ⟨x, rfl⟩
  | assignmentExpr =>
    rcases mem_three.1 he with rfl | rfl | rfl
    · cases hal
    · cases hal
    · obtain ⟨x, rfl⟩ := h.of_single rfl
      exact ⟨x, rfl⟩
  | conditionalExpr =>
    obtain ⟨c, ps1, rfl, h1⟩ := h.of_expr rfl
    rcases h1.of_optional with h2 | h2
    · cases h2.of_nil
      exact ⟨c, rfl⟩
    · obtain ⟨t, ps2, rfl, -, -, h3⟩ := Shapes.of_token h2
      obtain ⟨a, ps3, rfl, h4⟩ := Shapes.of_expr h3 rfl
      obtain ⟨u, ps4, rfl, -, -, h5⟩ := Shapes.of_token h4
      obtain ⟨b, rfl⟩ := Shapes.of_single h5 rfl
      exact ⟨.question c a b, rfl⟩
  | logicalOrExpr | logicalAndExpr =>
    rw [allows, decide_eq_true_eq, hlen] at hal
    rcases eq_of_shapes_logical rfl hal h with ⟨x, rfl⟩ | ⟨a, t, b, rfl⟩ <;> exact ⟨_, rfl⟩
  | equalityExpr | relationalExpr | additiveExpr | multiplicativeExpr =>
    obtain ⟨x, rest, links, rfl, hlinks⟩ := hcha rfl (by decide) h
    exact ⟨x.chain links, congrArg (Option.map x.chain) hlinks⟩
  | unaryExpr =>
    rcases mem_cons.1 he with rfl | he
    · obtain ⟨t, ps1, rfl, ht, hk, h1⟩ := Shapes.of_oneOf h
      obtain ⟨x, rfl⟩ := Shapes.of_single h1 rfl
      rcases mem_pair.1 hk with hk | hk
      · refine ⟨.minus x, ?_⟩
        change signed? t x = _
        rw [signed?, ht.text_eq (s := "-") (by rw [hk]; rfl)]
        rfl
      · refine ⟨.bang x, ?_⟩
        change signed? t x = _
        rw [signed?, ht.text_eq (s := "!") (by rw [hk]; rfl)]
        rfl
    · cases mem_singleton.1 he
      obtain ⟨x, rfl⟩ := h.of_single rfl
      exact ⟨x, rfl⟩
  | primaryExpr =>
    rcases mem_three.1 he with rfl | rfl | rfl
    · obtain ⟨x, rfl⟩ := h.of_single rfl
      exact ⟨x, rfl⟩
    · obtain ⟨x, rfl⟩ := h.of_single rfl
      exact ⟨x, rfl⟩
    · obtain ⟨t, ps1, rfl, -, -, h1⟩ := Shapes.of_token h
      obtain ⟨x, ps2, rfl, h2⟩ := Shapes.of_expr h1 rfl
      obtain ⟨u, ps3, rfl, -, -, h3⟩ := Shapes.of_token h2
      cases h3.of_nil
      exact ⟨x, rfl⟩
  | literalExpr =>
    -- Four of the alternatives are a token, and the fifth is not of the core.
    have htoken : ∀ k, Shapes [.token k] parts → ∃ x, assembleExpr ⟨.literalExpr, none⟩ parts =
        some x := by
      intro k h
      obtain ⟨t, ps1, rfl, ht, -, h1⟩ := h.of_token
      cases h1.of_nil
      obtain ⟨c, rfl⟩ := length_eq_one_iff.1 hlen
      obtain ⟨hc, -⟩ := forall₂_cons.1 (phrases?_eq_some hcs)
      rw [eq_leaf_of_phrase hc, allows, all_cons, Bool.and_eq_true] at hal
      exact exists_literalOf ht hal.1
    simp only [production, mem_cons, not_mem_nil, or_false] at he
    rcases he with rfl | rfl | rfl | rfl | rfl
    · exact htoken _ h
    · obtain ⟨p, ps1, rfl, hp, -⟩ := h.of_rule
      exact absurd hp (not_made rfl)
    · exact htoken _ h
    · exact htoken _ h
    · exact htoken _ h
  | leftHandSide =>
    obtain ⟨x, ps1, rfl, h1⟩ := h.of_expr rfl
    rcases h1.of_repeated with h2 | h2
    · cases h2.of_nil
      exact ⟨x, rfl⟩
    · obtain ⟨p, ps2, rfl, hp, -⟩ := Shapes.of_rule h2
      exact absurd hp (not_made rfl)
  | primaryAtom =>
    rcases mem_cons.1 he with rfl | he
    · obtain ⟨t, ps1, rfl, ht, hk, h1⟩ := Shapes.of_token h
      cases h1.of_nil
      exact ⟨.var t.text, congrArg (Option.map Expr.var) (nameOf?_of_lexed ht hk)⟩
    rcases mem_pair.1 he with rfl | rfl
    · cases hal
    · cases hal
  | _ => cases hr

lemma exists_part_of_any (hcs : phrases? cs = some parts) (hany : cs.any (·.isOf r) = true) :
    ∃ p ∈ parts, p.rule? = some r := by
  have hfor := phrases?_eq_some hcs
  obtain ⟨c, hc, hisOf⟩ := any_eq_true.1 hany
  obtain ⟨i, hi, rfl⟩ := getElem_of_mem hc
  have hi' : i < parts.length := by rw [← hfor.length_eq]; exact hi
  refine ⟨parts[i], getElem_mem hi', ?_⟩
  have hphr : phrase? cs[i] = some parts[i] := hfor.get hi hi'
  rw [isOf_of_phrase hphr, decide_eq_true_eq] at hisOf
  exact hisOf

lemma exists_declaration (ht : t.Lexed) (hk : t.kind = .identifier)
    (hinit : ∃ p ∈ ps, p.rule? = some .initializer)
    (h : Shapes [.optional [.rule .typeMark], .optional [.rule .initializer], .token .semicolon]
      ps) : ∃ s, declaration? t ps = some s := by
  -- What follows the type.
  have hval : ∀ {qs : List Phrase}, (∃ p ∈ qs, p.rule? = some .initializer) →
      Shapes [.optional [.rule .initializer], .token .semicolon] qs →
      ∃ e u, qs = [.init e, .token u] := by
    intro qs hqs h
    rcases h.of_optional with h1 | h1
    · obtain ⟨u, ps1, rfl, -, -, h2⟩ := h1.of_token
      cases h2.of_nil
      obtain ⟨p, hp, hru⟩ := hqs
      cases mem_singleton.1 hp
      cases hru
    · obtain ⟨p, ps1, rfl, hp, h2⟩ := Shapes.of_rule h1
      obtain ⟨u, ps2, rfl, -, -, h3⟩ := Shapes.of_token h2
      cases h3.of_nil
      obtain ⟨e, rfl⟩ := hp.exists_init
      exact ⟨e, u, rfl⟩
  rcases h.of_optional with h1 | h1
  · obtain ⟨e, u, rfl⟩ := hval hinit h1
    exact ⟨.declare t.text e, congrArg (Option.map (Stmt.declare · e)) (nameOf?_of_lexed ht hk)⟩
  · obtain ⟨p, ps1, rfl, hp, h2⟩ := Shapes.of_rule h1
    cases hp.eq_mark
    have hinit' : ∃ p ∈ ps1, p.rule? = some .initializer := by
      obtain ⟨p, hp, hru⟩ := hinit
      rcases mem_cons.1 hp with rfl | hp
      · cases hru
      · exact ⟨p, hp, hru⟩
    obtain ⟨e, u, rfl⟩ := hval hinit' h2
    exact ⟨.declare t.text e, congrArg (Option.map (Stmt.declare · e)) (nameOf?_of_lexed ht hk)⟩

lemma exists_assembleStmt
    (hr : isStmtRule r = true) (he : e ∈ production r) (h : Shapes e.body parts)
    (hcs : phrases? cs = some parts) (hal : allows ⟨r, e.label⟩ cs = true) :
    ∃ s, assembleStmt ⟨r, e.label⟩ parts = some s := by
  cases r with try cases mem_singleton.1 he
  | program =>
    exact exists_statements h
  | block =>
    obtain ⟨t, ps1, rfl, -, -, h1⟩ := Shapes.of_token h
    exact exists_statements h1
  | statement =>
    obtain ⟨q, hq, rfl⟩ := mem_map.1 he
    obtain ⟨p, ps1, rfl, hp, h1⟩ := Shapes.of_rule h
    cases h1.of_nil
    have hnat : isForeign q = false := Bool.eq_false_iff.2 fun hq => not_made hq hp
    have hsix : ∀ q ∈ [Rule.variableDeclaration, .constantDeclaration, .assignment,
        .functionDeclaration, .classDeclaration, .expressionStatement, .printStatement, .block,
        .ifStatement, .whileStatement, .doWhileStatement, .forStatement, .foreachStatement,
        .tryCatchStatement, .switchStatement, .breakStatement, .continueStatement,
        .returnStatement], isForeign q = false → q ∈ [Rule.variableDeclaration, .assignment,
        .printStatement, .block, .ifStatement, .whileStatement] := by
      decide
    have hq := hsix q hq hnat
    simp only [mem_cons, not_mem_nil, or_false] at hq
    rcases hq with rfl | rfl | rfl | rfl | rfl | rfl
    all_goals
      obtain ⟨s, rfl⟩ := hp.exists_stmt rfl
      exact ⟨_, rfl⟩
  | variableDeclaration =>
    obtain ⟨k, ps1, rfl, -, hk, h1⟩ := Shapes.of_oneOf h
    obtain ⟨t, ps2, rfl, ht, htk, h2⟩ := Shapes.of_token h1
    have hinit : ∃ p ∈ ps2, p.rule? = some .initializer := by
      obtain ⟨p, hp, hru⟩ := exists_part_of_any hcs hal
      rcases mem_cons.1 hp with rfl | hp
      · cases hru
      rcases mem_cons.1 hp with rfl | hp
      · cases hru
      · exact ⟨p, hp, hru⟩
    have hkd : k.kind ≠ .identifier := by
      rcases mem_pair.1 hk with hk | hk <;> rw [hk] <;> decide
    obtain ⟨s, hs⟩ := exists_declaration ht htk hinit h2
    exact ⟨s, (if_neg hkd).trans hs⟩
  | assignment =>
    rcases mem_pair.1 he with rfl | rfl
    · obtain ⟨t, ps1, rfl, ht, hk, h1⟩ := Shapes.of_token h
      obtain ⟨u, ps2, rfl, -, -, h2⟩ := Shapes.of_token h1
      obtain ⟨x, ps3, rfl, h3⟩ := Shapes.of_expr h2 rfl
      obtain ⟨v, ps4, rfl, -, -, h4⟩ := Shapes.of_token h3
      cases h4.of_nil
      exact ⟨.assign t.text x,
        congrArg (Option.map (Stmt.assign · x)) (nameOf?_of_lexed ht hk)⟩
    · obtain ⟨x, ps1, rfl, h1⟩ := Shapes.of_expr h rfl
      obtain ⟨u, ps2, rfl, -, hu, -⟩ := Shapes.of_token h1
      -- The second child is a dot, which is not allowed.
      obtain ⟨c, cs1, -, hcs1, rfl⟩ := forall₂_cons_right_iff.1 (phrases?_eq_some hcs)
      obtain ⟨c', cs2, hc', -, rfl⟩ := forall₂_cons_right_iff.1 hcs1
      rw [eq_leaf_of_phrase hc'] at hal
      simp [allows, Tree.isToken, Tree.token?, hu] at hal
  | printStatement =>
    obtain ⟨t, ps1, rfl, -, -, h1⟩ := Shapes.of_token h
    obtain ⟨u, ps2, rfl, -, -, h2⟩ := Shapes.of_token h1
    obtain ⟨x, ps3, rfl, h3⟩ := Shapes.of_expr h2 rfl
    obtain ⟨v, ps4, rfl, -, -, h4⟩ := Shapes.of_token h3
    obtain ⟨w, ps5, rfl, -, -, h5⟩ := Shapes.of_token h4
    cases h5.of_nil
    exact ⟨.print x, rfl⟩
  | ifStatement =>
    obtain ⟨t, ps1, rfl, -, -, h1⟩ := Shapes.of_token h
    obtain ⟨u, ps2, rfl, -, -, h2⟩ := Shapes.of_token h1
    obtain ⟨x, ps3, rfl, h3⟩ := Shapes.of_expr h2 rfl
    obtain ⟨v, ps4, rfl, -, -, h4⟩ := Shapes.of_token h3
    obtain ⟨a, ps5, rfl, h5⟩ := Shapes.of_stmt h4 rfl
    rcases h5.of_optional with h6 | h6
    · cases h6.of_nil
      exact ⟨.branch x a .skip, rfl⟩
    · obtain ⟨w, ps6, rfl, -, -, h7⟩ := Shapes.of_token h6
      obtain ⟨b, ps7, rfl, h8⟩ := Shapes.of_stmt h7 rfl
      cases h8.of_nil
      exact ⟨.branch x a b, rfl⟩
  | whileStatement =>
    obtain ⟨t, ps1, rfl, -, -, h1⟩ := Shapes.of_token h
    obtain ⟨u, ps2, rfl, -, -, h2⟩ := Shapes.of_token h1
    obtain ⟨x, ps3, rfl, h3⟩ := Shapes.of_expr h2 rfl
    obtain ⟨v, ps4, rfl, -, -, h4⟩ := Shapes.of_token h3
    obtain ⟨s, ps5, rfl, h5⟩ := Shapes.of_stmt h4 rfl
    cases h5.of_nil
    exact ⟨.loop x s, rfl⟩
  | _ => cases hr

lemma assembleExpr_eq_none (h : isStmtRule tag.rule = true) (parts : List Phrase) :
    assembleExpr tag parts = none := by
  unfold assembleExpr
  split <;> first | rfl | cases h

lemma assemble_of_expr {e : Expr}
    (htag : isExprRule tag.rule = true) (h : assembleExpr tag parts = some e) :
    assemble tag parts = some (.expr tag.rule e) := by
  unfold assemble
  split
  iterate 4 cases htag
  rw [h]

lemma assemble_of_stmt {s : Stmt}
    (htag : isStmtRule tag.rule = true) (h : assembleStmt tag parts = some s) :
    assemble tag parts = some (.stmt tag.rule s) := by
  unfold assemble
  split
  iterate 4 cases htag
  rw [assembleExpr_eq_none htag, h]
  rfl

lemma exists_assemble
    (he : e ∈ production r) (h : Shapes e.body parts) (hcs : phrases? cs = some parts)
    (hal : allows ⟨r, e.label⟩ cs = true) :
    ∃ p, assemble ⟨r, e.label⟩ parts = some p ∧ Made r p := by
  by_cases hex : isExprRule r = true
  · obtain ⟨x, hx⟩ := exists_assembleExpr hex he h hcs hal
    exact ⟨.expr r x, assemble_of_expr hex hx, .expr x hex⟩
  by_cases hstmt : isStmtRule r = true
  · obtain ⟨s, hs⟩ := exists_assembleStmt hstmt he h hcs hal
    exact ⟨.stmt r s, assemble_of_stmt hstmt hs, .stmt s hstmt⟩
  cases r with
  | initializer =>
    cases mem_singleton.1 he
    obtain ⟨t, ps1, rfl, -, -, h1⟩ := Shapes.of_token h
    obtain ⟨x, rfl⟩ := Shapes.of_single h1 rfl
    exact ⟨.init x, rfl, .init x⟩
  | typeMark => exact ⟨.mark .typeMark, rfl, .mark (.inl rfl)⟩
  | typeExpr => exact ⟨.mark .typeExpr, rfl, .mark (.inr (.inl rfl))⟩
  | baseType => exact ⟨.mark .baseType, rfl, .mark (.inr (.inr rfl))⟩
  | _ => first | exact absurd rfl hex | exact absurd rfl hstmt | cases hal

lemma exists_phrases {items : List Item} (h : Parses Token.Lexed items cs)
    (hadmits : admitsAll cs = true) : ∃ parts, phrases? cs = some parts ∧ Shapes items parts := by
  induction h with
  | nil => exact ⟨[], rfl, .nil⟩
  | token ht hk _ ih =>
    obtain ⟨parts, hpts, hsha⟩ := ih hadmits
    exact ⟨.token _ :: parts, congrArg (Option.map (Phrase.token _ :: ·)) hpts,
      .token ht hk hsha⟩
  | oneOf ht hk _ ih =>
    obtain ⟨parts, hpts, hsha⟩ := ih hadmits
    exact ⟨.token _ :: parts, congrArg (Option.map (Phrase.token _ :: ·)) hpts,
      .oneOf ht hk hsha⟩
  | rule he _ _ ihbody ih =>
    rw [admitsAll, admits, Bool.and_eq_true, Bool.and_eq_true] at hadmits
    obtain ⟨⟨hal, hb⟩, hrs⟩ := hadmits
    obtain ⟨inner, hinn, hbod⟩ := ihbody hb
    obtain ⟨parts, hpts, hsha⟩ := ih hrs
    obtain ⟨p, hp, hmade⟩ := exists_assemble he hbod hinn hal
    refine ⟨p :: parts, ?_, .rule hmade hsha⟩
    rw [phrases?, phrase?, hinn, hpts, Option.bind_some, hp]
    rfl
  | skip _ ih => exact (ih hadmits).imp fun _ h => ⟨h.1, .skip h.2⟩
  | take _ ih => exact (ih hadmits).imp fun _ h => ⟨h.1, .take h.2⟩
  | stop _ ih => exact (ih hadmits).imp fun _ h => ⟨h.1, .stop h.2⟩
  | more _ ih => exact (ih hadmits).imp fun _ h => ⟨h.1, .more h.2⟩
  | choice hb _ ih => exact (ih hadmits).imp fun _ h => ⟨h.1, .choice hb h.2⟩

lemma exists_of_admits {t : Tree} (h : Derived .program t)
    (hadmits : admits t = true) : ∃ p, program? t = some p := by
  obtain ⟨e, start, cs, he, hpar, rfl⟩ := h
  have hall : admitsAll [.node ⟨.program, e.label⟩ start cs] = true := by
    rw [admitsAll, hadmits]
    rfl
  obtain ⟨parts, hpts, hsha⟩ :=
    exists_phrases (Parses.rule (P := Token.Lexed) he hpar .nil) hall
  obtain ⟨s, ps, rfl, hps⟩ := hsha.of_stmt rfl
  cases hps.of_nil
  obtain ⟨hphr, -⟩ := forall₂_cons.1 (phrases?_eq_some hpts)
  exact ⟨s, by rw [program?, hphr]⟩

/-- The code of a text in the core does what the text says. The text may be any one that is read
    without an error, whose tree has nodes of the core only and whose names can do without scopes.
    It then has a program and it has code, and whatever the numbers are and the variables hold at
    first, the code prints what the program prints, ends when and how the program ends, and leaves
    in the outermost variables what the program leaves there. -/
theorem code_implements_source (source : String) (hparse : (parse source).errors = [])
    (hadmits : admits (parse source).tree = true) : ∃ p, program? (parse source).tree = some p ∧
      (WellNamed p → ∃ g, Generator.run (parse source).tree (.start none) = (.ok .none, g) ∧
        ∀ (V : Type) [DecidableEq V] (A : Arith V) (store : String → V),
          Implements A g.code p store) := by
  obtain ⟨p, hp⟩ := exists_of_admits (derives_of_parse hparse) hadmits
  exact ⟨p, hp, exists_implements hp⟩

/-- A loop with a declaration in it, which comes to a division by zero. -/
def countdown : String :=
  "let n: integer = 2; while (true) { let q = 6 / n; print(n < 2 || q != 3 ? q : -n); n = n - 1; }"

set_option maxRecDepth 100000 in
lemma countdown_admitted : ((parse countdown).errors.isEmpty && admits (parse countdown).tree &&
      (program? (parse countdown).tree).all fun p => decide (WellNamed p)) = true := by
  decide +kernel

theorem code_implements_countdown : ∃ p g, program? (parse countdown).tree = some p ∧ WellNamed p ∧
      Generator.run (parse countdown).tree (.start none) = (.ok .none, g) ∧
      ∀ (V : Type) [DecidableEq V] (A : Arith V) (store : String → V),
        Implements A g.code p store := by
  have hall := countdown_admitted
  rw [Bool.and_eq_true, Bool.and_eq_true, List.isEmpty_iff] at hall
  obtain ⟨⟨hparse, hadmits⟩, hnam⟩ := hall
  obtain ⟨p, hp, himp⟩ := code_implements_source countdown hparse hadmits
  rw [hp, Option.all_some, decide_eq_true_eq] at hnam
  obtain ⟨g, hg, hcode⟩ := himp hnam
  exact ⟨p, g, hp, hnam, hg, hcode⟩

end Compiscript.Core
