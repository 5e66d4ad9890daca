import Compiscript.Check.Expr
import Compiscript.Proofs.Codegen.Run
import Mathlib.Data.List.Forall2

/-!
# A Type System for Expressions

The types that expressions have by rules.

The expressions are made of literals, names, parentheses, sums, comparisons, logical
operators, conditionals, array literals, indices and calls of functions by name. They
are plain terms here; `Denotes` says which parse trees stand for which term, with every
name bound in a scope.
-/

namespace Compiscript

open List

/-- Expressions with rules for their types. -/
inductive Term where
  | integer (text : String)
  | string (text : String)
  | boolean (value : Bool)
  | null
  | name (x : String)
  | additive (signs : List Kind) (operands : List Term)
  | relational (operands : List Term)
  | equality (operands : List Term)
  | logical (operands : List Term)
  | conditional (c a b : Term)
  | array (elements : List Term)
  | index (a i : Term)
  | call (f : String) (args : List Term)

namespace Term

/-- A term has a type in a scope. -/
inductive HasType (Γ : Scopes) : Term → Ty → Prop where
  | integer {text : String} : HasType Γ (.integer text) .integer
  | string {text : String} : HasType Γ (.string text) .string
  | boolean {value : Bool} : HasType Γ (.boolean value) .boolean
  | null : HasType Γ .null .null
  | name {x : String} {sym : Symbol} (h : Γ.resolve? x = some sym) : HasType Γ (.name x) sym.type
  | concatenation {signs : List Kind} {es : List Term} {types : List Ty}
      (h : List.Forall₂ (HasType Γ) es types) (hstring : .string ∈ types)
      (hplus : ∀ k ∈ signs, k = .plus) : HasType Γ (.additive signs es) .string
  | sum {signs : List Kind} {es : List Term} {types : List Ty}
      (h : List.Forall₂ (HasType Γ) es types) (hnum : ∀ T ∈ types, T.isNumeric = true) :
      HasType Γ (.additive signs es) (if .float ∈ types then .float else .integer)
  | relational {es : List Term} {types : List Ty} (h : List.Forall₂ (HasType Γ) es types)
      (hnum : ∀ T ∈ types, T.isNumeric = true) : HasType Γ (.relational es) .boolean
  | equality {es : List Term} {T : Ty} (h : ∀ e ∈ es, HasType Γ e T) :
      HasType Γ (.equality es) .boolean
  | logical {es : List Term} (h : ∀ e ∈ es, HasType Γ e .boolean) : HasType Γ (.logical es) .boolean
  | conditional {c a b : Term} {T : Ty} (hc : HasType Γ c .boolean) (ha : HasType Γ a T)
      (hb : HasType Γ b T) : HasType Γ (.conditional c a b) T
  | empty : HasType Γ (.array []) (.array .null)
  | array {e : Term} {es : List Term} {T : Ty} (h : HasType Γ e T) (hes : ∀ d ∈ es, HasType Γ d T) :
      HasType Γ (.array (e :: es)) (.array T)
  | index {a i : Term} {T : Ty} (ha : HasType Γ a (.array T)) (hi : HasType Γ i .integer) :
      HasType Γ (.index a i) T
  | call {f : String} {args : List Term} {sym : Symbol} {params : List (String × Ty)}
      {entry exit : Option String} (h : Γ.resolve? f = some sym)
      (hf : sym.detail = .function params entry exit)
      (hargs : List.Forall₂ (HasType Γ) args (params.map Prod.snd)) :
      HasType Γ (.call f args) sym.type

/-- A literal that is no keyword: a text in quotes or a number. -/
def ofLiteral (text : String) : Term :=
  if text.toList.head? = some '"' then .string text else .integer text

/-- A chain of operators of a rule. -/
def ofChain : Rule → List Kind → List Term → Term
  | .additiveExpr, signs, es => .additive signs es
  | .relationalExpr, _, es => .relational es
  | .equalityExpr, _, es => .equality es
  | _, _, es => .logical es

/-- A term with indices behind it. -/
def indexed (e : Term) (is : List Term) : Term := is.foldl .index e

end Term

namespace Tree

/-- Trees with a token between each two of them. -/
def weave : List Tree → List Token → List Tree
  | c :: cs, op :: ops => c :: .leaf op :: weave cs ops
  | cs, _ => cs

/-- The arguments of a call; without any there is no node for them. -/
def argumentsOf (p : Pos) (cs : List Tree) (commas : List Token) : List Tree :=
  if cs.isEmpty then [] else [.node ⟨.arguments, none⟩ p (weave cs commas)]

lemma filter_isOf_weave {r : Rule} {cs : List Tree} (ops : List Token)
    (h : ∀ c ∈ cs, c.isOf r = true) : (weave cs ops).filter (·.isOf r) = cs := by
  fun_induction weave cs ops with
  | case1 c cs op ops ih =>
    rw [forall_mem_cons] at h
    rw [filter_cons_of_pos h.1, filter_cons_of_neg (by simp), ih h.2]
  | case2 cs ops _ => exact filter_eq_self.2 h

lemma operators_weave {cs : List Tree} {ops : List Token} (h : ops.length + 1 = cs.length) :
    Check.operators (weave cs ops) = ops.map Token.text := by
  fun_induction weave cs ops with
  | case1 c cs op ops ih => rw [Check.operators, map_cons, text, ih (by simpa using h)]
  | case2 cs ops hnot =>
    match cs, ops with
    | [], _ => simp at h
    | [_], [] => rfl
    | _ :: _ :: _, [] => simp at h
    | c :: cs, op :: ops => exact (hnot c cs op ops rfl rfl).elim

end Tree

/-- Nodes that are only a step on the way to the node below. -/
def stepsDown : List (Tag × Rule) :=
  [(⟨.expression, none⟩, .assignmentExpr),
   (⟨.assignmentExpr, some .exprNoAssign⟩, .conditionalExpr),
    (⟨.conditionalExpr, some .ternaryExpr⟩, .logicalOrExpr),
    (⟨.logicalOrExpr, none⟩, .logicalAndExpr), (⟨.logicalAndExpr, none⟩, .equalityExpr),
    (⟨.equalityExpr, none⟩, .relationalExpr), (⟨.relationalExpr, none⟩, .additiveExpr),
    (⟨.additiveExpr, none⟩, .multiplicativeExpr), (⟨.multiplicativeExpr, none⟩, .unaryExpr),
    (⟨.unaryExpr, none⟩, .primaryExpr), (⟨.primaryExpr, none⟩, .literalExpr),
    (⟨.primaryExpr, none⟩, .leftHandSide), (⟨.literalExpr, none⟩, .arrayLiteral)]

/-- The operands and the operators of the chains that are typed. -/
def chains : List (Rule × Rule × List Kind) :=
  [(.logicalOrExpr, .logicalAndExpr, [.orElse]), (.logicalAndExpr, .equalityExpr, [.andAlso]),
    (.equalityExpr, .relationalExpr, [.equals, .differs]),
    (.relationalExpr, .additiveExpr, [.less, .lessEq, .greater, .greaterEq]),
    (.additiveExpr, .multiplicativeExpr, [.plus, .minus])]

/-- The keywords that are literals. -/
def keywords : List (Kind × Term) :=
  [(.kwTrue, .boolean true), (.kwFalse, .boolean false), (.kwNull, .null)]

/-- A token of a kind, as the lexer makes it. -/
structure Token.Is (t : Token) (k : Kind) : Prop where
  lexed : t.Lexed
  kind : t.kind = k

/-- An index behind a value, with the term in it. -/
structure Bracketed where
  start : Pos
  opening : Token
  closing : Token
  inner : Tree
  term : Term

/-- The tree of an index. -/
def Bracketed.tree (b : Bracketed) : Tree :=
  .node ⟨.suffixOp, some .indexExpr⟩ b.start [.leaf b.opening, b.inner, .leaf b.closing]

/-- The trees of a rule that stand for a term, with all names bound in a scope. -/
inductive Denotes (Γ : Scopes) : Rule → Tree → Term → Prop where
  | step {tag : Tag} {r : Rule} {p : Pos} {c : Tree} {e : Term} (hr : (tag, r) ∈ stepsDown)
      (h : Denotes Γ r c e) : Denotes Γ tag.rule (.node tag p [c]) e
  | literal {p : Pos} {t : Token} (ht : t.Is .literal) :
      Denotes Γ .literalExpr (.node ⟨.literalExpr, none⟩ p [.leaf t]) (.ofLiteral t.text)
  | keyword {p : Pos} {t : Token} {k : Kind} {e : Term} (hk : (k, e) ∈ keywords) (ht : t.Is k) :
      Denotes Γ .literalExpr (.node ⟨.literalExpr, none⟩ p [.leaf t]) e
  | parens {p : Pos} {t t' : Token} {c : Tree} {e : Term} (ht : t.Is .openParen)
      (ht' : t'.Is .closeParen) (h : Denotes Γ .expression c e) :
      Denotes Γ .primaryExpr (.node ⟨.primaryExpr, none⟩ p [.leaf t, c, .leaf t']) e
  | chain {r operand : Rule} {kinds : List Kind} {p : Pos} {parts : List (Tree × Term)}
      {ops : List Token} (hr : (r, operand, kinds) ∈ chains)
      (hops : ∀ op ∈ ops, ∃ k ∈ kinds, op.Is k) (hma : ops ≠ [])
      (hlen : ops.length + 1 = parts.length) (h : ∀ q ∈ parts, Denotes Γ operand q.1 q.2) :
      Denotes Γ r (.node ⟨r, none⟩ p (Tree.weave (parts.map Prod.fst) ops))
        (.ofChain r (ops.map Token.kind) (parts.map Prod.snd))
  | conditional {p : Pos} {c a b : Tree} {t t' : Token} {ec ea eb : Term} (ht : t.Is .question)
      (ht' : t'.Is .colon) (hc : Denotes Γ .logicalOrExpr c ec) (ha : Denotes Γ .expression a ea)
      (hb : Denotes Γ .expression b eb) :
      Denotes Γ .conditionalExpr
        (.node ⟨.conditionalExpr, some .ternaryExpr⟩ p [c, .leaf t, a, .leaf t', b])
        (.conditional ec ea eb)
  | array {p : Pos} {t t' : Token} {parts : List (Tree × Term)} {commas : List Token}
      (ht : t.Is .openBracket) (ht' : t'.Is .closeBracket) (hcom : ∀ op ∈ commas, op.Is .comma)
      (hlen : commas.length = parts.length - 1)
      (h : ∀ q ∈ parts, Denotes Γ .expression q.1 q.2) :
      Denotes Γ .arrayLiteral
        (.node ⟨.arrayLiteral, none⟩ p
          (.leaf t :: (Tree.weave (parts.map Prod.fst) commas ++ [.leaf t'])))
        (.array (parts.map Prod.snd))
  | name {p q : Pos} {t : Token} {sym : Symbol} {is : List Bracketed} (ht : t.Is .identifier)
      (hsym : Γ.resolve? t.text = some sym)
      (his : ∀ i ∈ is, i.opening.Is .openBracket ∧ i.closing.Is .closeBracket)
      (h : ∀ i ∈ is, Denotes Γ .expression i.inner i.term) :
      Denotes Γ .leftHandSide
        (.node ⟨.leftHandSide, none⟩ p
          (.node ⟨.primaryAtom, some .identifierExpr⟩ q [.leaf t] :: is.map Bracketed.tree))
        (Term.indexed (.name t.text) (is.map Bracketed.term))
  | call {p q q' q'' : Pos} {t t' t'' : Token} {sym : Symbol} {params : List (String × Ty)}
      {entry exit : Option String} {args : List (Tree × Term)} {commas : List Token}
      {is : List Bracketed} (ht : t.Is .identifier) (hsym : Γ.resolve? t.text = some sym)
      (hf : sym.detail = .function params entry exit) (ht' : t'.Is .openParen)
      (ht'' : t''.Is .closeParen) (hcom : ∀ op ∈ commas, op.Is .comma)
      (hlen : commas.length = args.length - 1)
      (hargs : ∀ q ∈ args, Denotes Γ .expression q.1 q.2)
      (his : ∀ i ∈ is, i.opening.Is .openBracket ∧ i.closing.Is .closeBracket)
      (h : ∀ i ∈ is, Denotes Γ .expression i.inner i.term) :
      Denotes Γ .leftHandSide
        (.node ⟨.leftHandSide, none⟩ p
          (.node ⟨.primaryAtom, some .identifierExpr⟩ q [.leaf t] ::
            .node ⟨.suffixOp, some .callExpr⟩ q'
              (.leaf t' :: (Tree.argumentsOf q'' (args.map Prod.fst) commas ++ [.leaf t''])) ::
            is.map Bracketed.tree))
        (Term.indexed (.call t.text (args.map Prod.snd)) (is.map Bracketed.term))

/-- Scopes in which every symbol has a type, as have its parameters, and is found
    under a name that can be written. -/
structure Scopes.Typed (Γ : Scopes) : Prop where
  type : ∀ x sym, Γ.resolve? x = some sym → sym.type.IsProper
  params : ∀ x sym, Γ.resolve? x = some sym → ∀ p ∈ Check.paramsOf sym, p.2.IsProper
  name : ∀ x sym, Γ.resolve? x = some sym →
    x = "this" ∨ Lexer.kindOf? x.toList = some .identifier

namespace Tree

variable {t c : Tree} {o : Token}

/-- A tree whose text begins, and not with a question mark. -/
def Opens (t : Tree) : Prop := ∃ c cs, t.text.toList = c :: cs ∧ c ≠ '?'

lemma Opens.node (h : c.Opens) (tag : Tag) (p : Pos) (cs : List Tree) :
    (node tag p (c :: cs)).Opens := by
  obtain ⟨d, ds, hds, hd⟩ := h
  refine ⟨d, ds ++ (textOfAll cs).toList, ?_, hd⟩
  rw [text, textOfAll, String.toList_append, hds, cons_append]

lemma Opens.text_ne (h : t.Opens) : t.text ≠ "?" := by
  obtain ⟨d, ds, hds, hd⟩ := h
  intro htx
  rw [htx] at hds
  exact hd (List.cons.inj hds).1.symm

lemma Opens.of_spelling {k : Kind} (ho : o.Is k) {d : Char} {u : String}
    (hk : k.spelling? = some u) (hu : u.toList.head? = some d) (hd : d ≠ '?') : (leaf o).Opens := by
  obtain ⟨ds, hds⟩ := head?_eq_some_iff.1 hu
  refine ⟨d, ds, ?_, hd⟩
  rw [text, ho.lexed.text_eq (by rw [ho.kind]; exact hk), hds]

lemma Opens.of_identifier (ho : o.Is .identifier) : (leaf o).Opens := by
  obtain ⟨c, cs, hcs, hc, -⟩ := ho.lexed.exists_of_identifier ho.kind
  refine ⟨c, cs, hcs, ?_⟩
  rintro rfl
  exact absurd hc (by decide)

lemma Opens.of_literal (ho : o.Is .literal) : (leaf o).Opens := by
  rcases ho.lexed.digits_or_quoted ho.kind with ⟨hne, hdig⟩ | hqt
  · obtain ⟨c, cs, hcs⟩ := exists_cons_of_ne_nil hne
    refine ⟨c, cs, hcs, ?_⟩
    rintro rfl
    exact absurd (hdig _ (hcs ▸ mem_cons_self)) (by decide)
  · obtain ⟨cs, hcs⟩ := head?_eq_some_iff.1 hqt
    exact ⟨_, cs, hcs, by decide⟩

end Tree

variable {Γ : Scopes} {r : Rule} {t : Tree} {e : Term}

lemma Denotes.isOf (h : Denotes Γ r t e) : t.isOf r = true := by
  cases h <;> exact beq_self_eq_true _

/-- No term begins with a question mark. -/
lemma Denotes.opens (h : Denotes Γ r t e) : t.Opens := by
  induction h with
  | step _ _ ih => exact ih.node _ _ _
  | literal ht => exact (Tree.Opens.of_literal ht).node _ _ _
  | keyword hk ht =>
    refine Tree.Opens.node ?_ _ _ _
    simp only [keywords, mem_cons, Prod.mk.injEq, not_mem_nil, or_false] at hk
    rcases hk with ⟨rfl, -⟩ | ⟨rfl, -⟩ | ⟨rfl, -⟩
    · exact .of_spelling ht rfl (d := 't') rfl (by decide)
    · exact .of_spelling ht rfl (d := 'f') rfl (by decide)
    · exact .of_spelling ht rfl (d := 'n') rfl (by decide)
  | parens ht _ _ _ => exact (Tree.Opens.of_spelling ht rfl (d := '(') rfl (by decide)).node _ _ _
  | @chain r operand kinds p parts ops hr hops hma hlen h ih =>
    rcases ops with _ | ⟨op, ops⟩
    · exact absurd rfl hma
    rcases parts with _ | ⟨q, parts⟩
    · cases hlen
    · exact (ih q (.head _)).node _ _ _
  | conditional _ _ _ _ _ ih _ _ => exact ih.node _ _ _
  | array ht _ _ _ _ _ =>
      exact (Tree.Opens.of_spelling ht rfl (d := '[') rfl (by decide)).node _ _ _
  | name ht | call ht => exact ((Tree.Opens.of_identifier ht).node _ _ _).node _ _ _

end Compiscript
