import Compiscript.Proofs.Check.Arrivals

/-!
# What the Checker Covers

Which parts of a program are looked at, wherever they are in it.

Going down from the whole program, the checker comes by nearly everything. It does not
look at the statements in the cases of a `switch`, at the initial values of fields, and
at the targets of assignment expressions.
-/

namespace Compiscript

open List

namespace Tree

/-- A way down a tree, with all steps as `edge` says. The nodes above its end are listed, the
    innermost first. -/
inductive Path (edge : Tree → Tree → Prop) : Tree → List Tree → Tree → Prop
  | here (t : Tree) : Path edge t [] t
  | into {t c d : Tree} {around : List Tree} (hc : c ∈ t.children) (hedge : edge t c)
    (h : Path edge c around d) : Path edge t (around ++ [t]) d

section Path

variable {t c : Tree} {around : List Tree} {edge edge' : Tree → Tree → Prop}

lemma Path.within (h : t.Path edge around c) : c.Within t := by
  induction h with
  | here t => exact .refl t
  | into hc _ _ ih => exact ih.trans (.of_mem hc)

lemma Path.imp (h : t.Path edge around c)
    (himp : ∀ a d, a.Within t → d ∈ a.children → c.Within d → edge a d → edge' a d) :
    t.Path edge' around c := by
  induction h with
  | here t => exact .here t
  | into hd hedge hrs ih =>
    refine .into hd (himp _ _ (.refl _) hd hrs.within hedge) (ih fun a d ha => ?_)
    exact himp a d (ha.trans (.of_mem hd))

lemma Path.trans {above : List Tree} {d : Tree} (h : t.Path edge above d)
    (h' : d.Path edge around c) : t.Path edge (around ++ above) c := by
  induction h with
  | here => rwa [append_nil]
  | into hc hedge _ ih =>
    rw [← append_assoc]
    exact .into hc hedge (ih h')

lemma Path.mem_around {q r : Rule} (h : t.Path edge around c) (ht : t.isOf q = true)
    (hc : c.isOf r = true) (hne : q ≠ r) : t ∈ around := by
  cases h with
  | here => exact absurd hc (by rw [isOf_eq_false ht hne]; decide)
  | into => simp

/-- There is a way down to whatever occurs in a tree. -/
lemma exists_path (hc : c.Within t)
    (hedge : ∀ a d, a.Within t → d ∈ a.children → c.Within d → edge a d) :
    ∃ around, t.Path edge around c := by
  induction hc with
  | refl => exact ⟨[], .here c⟩
  | @tail d t hcd hd ih =>
    obtain ⟨around, hpth⟩ := ih fun a d' ha => hedge a d' (ha.trans (.of_mem hd))
    exact ⟨_, .into hd (hedge t d (.refl t) hd hcd) hpth⟩

end Path

/-- Whether a child is looked at when a tree is. -/
def looksAt (t c : Tree) : Prop :=
  match t.tag?.map Tag.rule with
  | some .switchCase | some .defaultCase => c.isOf .expression = true
  | some .classMember => c.isOf .functionDeclaration = true ∨
    c.isOf .constantDeclaration = true ∧ c.markedType? = none
  | some .assignmentExpr => c.isOf .leftHandSide = false
  | _ => True

end Tree

namespace Rule

/-- Rules of nodes that stand between a tree and the parts that are looked at. -/
def isBetween : Rule → Bool
  | .typeMark | .initializer | .switchCase | .defaultCase | .parameters | .parameter | .classMember
  | .typeExpr | .baseType | .suffixOp | .arguments => true
  | _ => false

/-- Rules of nodes that are visited whenever they are looked at. -/
def isVisited : Rule → Bool
  | .statement | .assignment => true
  | r => r.isInExpression && !r.isBetween

/-- Rules of nodes without anything to look at. -/
def isBare : Rule → Bool
  | .typeMark | .parameters | .parameter | .typeExpr | .baseType => true
  | _ => false

/-- Rules of nodes without statements. -/
def isSimple : Rule → Bool
  | .initializer | .variableDeclaration | .constantDeclaration => true
  | r => r.isInExpression || r.isBare

lemma closed_isSimple : Rule.Closed isSimple := by decide +kernel

lemma closed_isBare : Rule.Closed isBare := by decide +kernel

/-- Whether the children made by one rule are looked at in a tree of another. -/
def stepsTo (r q : Rule) : Bool :=
  match r with
  | .program | .block => q == .statement
  | .statement | .tryCatchStatement => true
  | .constantDeclaration | .assignment | .expressionStatement | .printStatement | .returnStatement
  | .switchStatement => q == .expression
  | .ifStatement | .whileStatement | .doWhileStatement | .foreachStatement =>
    q == .expression || q == .block
  | .forStatement => q == .expression || q == .block || q == .assignment ||
      q == .variableDeclaration
  | .functionDeclaration => q == .block
  | .assignmentExpr => q == .assignmentExpr || q == .conditionalExpr
  | .leftHandSide => q == .primaryAtom
  | r => r.isInExpression && !r.isBetween && r != .primaryAtom

lemma stepsTo_or : ∀ r ∈ Rule.all, r.isBetween = false → ∀ e ∈ production r, ∀ q ∈ Rule.all,
    Item.mentionsIn q e.body = true → (r.stepsTo q = true ∧ q.isBetween = false) ∨ q.isBare = true ∨
      (r, q) ∈ [(.variableDeclaration, .initializer), (.switchStatement, .switchCase),
        (.switchStatement, .defaultCase), (.classDeclaration, .classMember),
        (.assignmentExpr, .leftHandSide), (.leftHandSide, .suffixOp),
        (.primaryAtom, .arguments)] := by decide +kernel

end Rule

namespace Check

variable {s σ : Checker} {t c : Tree} {r q : Rule} {around : List Tree}

lemma positions_eq (h : Derived r t) : positions t = positionsOf t r := by
  obtain ⟨e, p, cs, -, -, rfl⟩ := h
  simp [positions, Tree.tag?]

variable {via : List Tree}

lemma mem_inTurn {cs : List Tree} {before : Check Unit} (hc : c ∈ cs) :
    ∃ p ∈ inTurn via before cs, p.part = c ∧ p.via = via := by
  induction cs generalizing before with
  | nil => cases hc
  | cons d cs ih =>
    rcases mem_cons.1 hc with rfl | hc
    · exact ⟨_, mem_append_left _ (.head _), rfl, rfl⟩
    · obtain ⟨p, hp, heq⟩ := ih hc
      exact ⟨p, mem_append_right _ hp, heq⟩

lemma exists_before {α κ : Type} {xs : List α} {x : α} (hx : x ∈ xs)
    (places : Check κ → α → List Position) (step : κ → α → Check Unit) (before : Check κ) :
    ∃ before', ∀ p ∈ places before' x, p ∈ along step places before xs := by
  induction xs generalizing before with
  | nil => cases hx
  | cons y xs ih =>
    rcases mem_cons.1 hx with rfl | hx
    · exact ⟨before, fun p hp => mem_append_left _ hp⟩
    · obtain ⟨before', hbef⟩ := ih hx _
      exact ⟨before', fun p hp => mem_append_right _ (hbef p hp)⟩

lemma mem_partsOf (hc : c ∈ t.children) (hof : c.isOf q = true) : c ∈ t.partsOf q :=
  mem_filter.2 ⟨hc, hof⟩

lemma third_of_for (h : Derived .forStatement t) (hc : c ∈ t.children)
    (hof : c.isOf q = true) (hq : q = .assignment ∨ q = .variableDeclaration) :
    c ∈ t.children[2]?.toList := by
  obtain ⟨e, p, cs, he, hcs, rfl⟩ := h
  cases mem_singleton.1 he
  have hlat : ∀ {ds : List Tree}, Parses Token.Lexed [.optional [.rule .expression],
      .token .semicolon, .optional [.rule .expression], .token .closeParen, .rule .block] ds →
      c ∉ ds := by
    intro ds hds hmem
    have hmd := hds.mentions_of_mem hmem hof
    rcases hq with rfl | rfl <;> cases hmd
  cases hcs with
  | token _ _ hcs => cases hcs with
  | token _ _ hcs => cases hcs with
  | @choice alts body _ _ hb hcs =>
    simp only [Tree.children_node, mem_cons] at hc
    obtain rfl | rfl | hc := hc
    · cases hof
    · cases hof
    simp only [mem_cons, not_mem_nil, or_false] at hb
    rcases hb with rfl | rfl | rfl
    · cases hcs with
      | rule _ _ hcs =>
        cases (mem_cons.1 hc).resolve_right (hlat hcs)
        exact .head _
    · cases hcs with
      | rule _ _ hcs =>
        cases (mem_cons.1 hc).resolve_right (hlat hcs)
        exact .head _
    · cases hcs with
      | token _ _ hcs =>
        cases (mem_cons.1 hc).resolve_right (hlat hcs)
        cases hof

lemma mem_valuePositions (hc : (via, c) ∈ valueParts t r) :
    ∃ p ∈ valuePositions t r, p.part = c ∧ p.via = via :=
  ⟨⟨via, c, pure ()⟩, mem_map.2 ⟨_, hc, rfl⟩, rfl, rfl⟩

lemma exists_direct (h : Derived r t) (hc : c ∈ t.children) (hof : c.isOf q = true)
    (hsp : r.stepsTo q = true) : ∃ p ∈ positions t, p.part = c ∧ p.via = [] := by
  have hps : ∀ {q'}, (q == q') = true → c ∈ t.partsOf q' := fun hq =>
    mem_partsOf hc (eq_of_beq hq ▸ hof)
  have hopd : r.isInExpression = true → ([], c) ∈ t.operands.map (([] : List Tree), ·) := by
    intro hr
    have hall := h.everywhere_rule Rule.closed_isInExpression hr c (.of_mem hc)
    refine mem_map.2 ⟨c, mem_filter.2 ⟨hc, ?_⟩, rfl⟩
    cases c with
    | node tag pos cs => exact hall tag rfl
    | leaf | bad => cases hof
  rw [positions_eq h]
  cases r with
  | program | block | constantDeclaration | assignment | expressionStatement | printStatement
  | returnStatement | functionDeclaration => exact mem_inTurn (hps hsp)
  | statement | tryCatchStatement => exact mem_inTurn hc
  | switchStatement =>
    obtain ⟨p, hp, heq⟩ := mem_inTurn (hps hsp)
    exact ⟨p, mem_append_left _ hp, heq⟩
  | ifStatement =>
    refine mem_inTurn (mem_append.2 ?_)
    exact (Bool.or_eq_true_iff.1 hsp).imp hps hps
  | whileStatement | foreachStatement =>
    rcases Bool.or_eq_true_iff.1 hsp with hq | hq
    · obtain ⟨p, hp, heq⟩ := mem_inTurn (hps hq)
      exact ⟨p, mem_append_left _ hp, heq⟩
    · obtain ⟨p, hp, heq⟩ := mem_inTurn (hps hq)
      exact ⟨p, mem_append_right _ hp, heq⟩
  | doWhileStatement =>
    rcases Bool.or_eq_true_iff.1 hsp with hq | hq
    · obtain ⟨p, hp, heq⟩ := mem_inTurn (hps hq)
      exact ⟨p, mem_append_right _ hp, heq⟩
    · obtain ⟨p, hp, heq⟩ := mem_inTurn (hps hq)
      exact ⟨p, mem_append_left _ hp, heq⟩
  | forStatement =>
    refine mem_inTurn (mem_append.2 ?_)
    rw [mem_append]
    rcases Bool.or_eq_true_iff.1 hsp with hsp | hq
    · rcases Bool.or_eq_true_iff.1 hsp with hsp | hq
      · exact (Bool.or_eq_true_iff.1 hsp).imp (fun hq => .inr (hps hq)) hps
      · exact .inl (.inl (third_of_for h hc hof (.inl (eq_of_beq hq))))
    · exact .inl (.inl (third_of_for h hc hof (.inr (eq_of_beq hq))))
  | assignmentExpr =>
    refine mem_valuePositions (mem_map.2 ⟨c, mem_append.2 ?_, rfl⟩)
    exact (Bool.or_eq_true_iff.1 hsp).imp hps hps
  | leftHandSide =>
    exact mem_valuePositions (mem_append_left _ (mem_map.2 ⟨c, hps hsp, rfl⟩))
  | expression | conditionalExpr | logicalOrExpr | logicalAndExpr | equalityExpr | relationalExpr
  | additiveExpr | multiplicativeExpr | unaryExpr | primaryExpr | literalExpr | arrayLiteral =>
    exact mem_valuePositions (hopd rfl)
  | _ => cases hsp

/-! ### Steps of a way down -/

lemma not_path_of_isBare {edge : Tree → Tree → Prop} (h : Derived r t)
    (hr : r.isBare = true) (hpth : t.Path edge around c)
    (hc : c.isOneOf Rule.isVisited = true) : False := by
  have hall := h.everywhere_rule Rule.closed_isBare hr c hpth.within
  have hdis : ∀ r ∈ Rule.all, r.isBare = true → r.isVisited = false := by decide
  cases c with
  | node tag pos cs =>
    exact Bool.false_ne_true ((hdis _ (Rule.mem_all _) (hall tag rfl)).symm.trans hc)
  | leaf | bad => cases hc

lemma exists_into (h : Derived r t) (hr : r.isVisited = false)
    (hpth : t.Path Tree.looksAt around c) (hc : c.isOneOf Rule.isVisited = true) :
    ∃ d around' q, d ∈ t.children ∧ t.looksAt d ∧ d.Path Tree.looksAt around' c ∧
      around = around' ++ [t] ∧ d.isOf q = true ∧
      ∃ e ∈ production r, Item.mentionsIn q e.body = true := by
  cases hpth with
  | here =>
    rw [isOneOf_eq h] at hc
    exact absurd hc (Bool.eq_false_iff.1 hr)
  | @into _ d _ around' hd hlooks hrs =>
    rcases h.leaf_or_mentioned hd with ⟨tok, rfl⟩ | ⟨q, hof, hmd⟩
    · cases hrs with
      | here => cases hc
      | into hd' => cases hd'
    · exact ⟨d, around', q, hd, hlooks, hrs, rfl, hof, hmd⟩

/-- The next place on a way down that is visited. -/
def Next (t : Tree) (around : List Tree) (c : Tree) : Prop :=
  ∃ p ∈ positions t, ∃ around' q, p.part.isOf q = true ∧ q.isBetween = false ∧ p.part.Within t ∧
    p.part.Path Tree.looksAt around' c ∧ around = around' ++ (p.via ++ [t])

lemma next_of_mem (via : List Tree) {d : Tree} {around' : List Tree}
    (hmem : ∃ p ∈ positions t, p.part = d ∧ p.via = via) (hof : d.isOf q = true)
    (hq : q.isBetween = false) (hd : d.Within t) (hrs : d.Path Tree.looksAt around' c)
    (haro : around = around' ++ (via ++ [t])) : Next t around c := by
  obtain ⟨p, hp, rfl, rfl⟩ := hmem
  exact ⟨p, hp, around', q, hof, hq, hd, hrs, haro⟩

section Between

variable {m : Tree} (hm : m ∈ t.children) (hpth : m.Path Tree.looksAt around c)
  (hc : c.isOneOf Rule.isVisited = true)

include hm hpth hc

lemma next_initializer (h : Derived .variableDeclaration t)
    (hof : m.isOf .initializer = true) : Next t (around ++ [t]) c := by
  have ho : Rule.MentionsOnly .initializer fun q => q = .expression := by decide
  obtain ⟨d, around', q, hd, -, hrs, rfl, hq, e, he, hmd⟩ :=
    exists_into (h.of_isOf (.of_mem hm) hof) rfl hpth hc
  cases ho e he q (Rule.mem_all q) hmd
  refine next_of_mem [m] ?_ hq rfl ((Tree.Within.of_mem hd).trans (.of_mem hm)) hrs (by simp)
  rw [positions_eq h]
  exact (mem_inTurn (mem_partsOf hd hq)).imp fun p hp =>
    ⟨mem_flatMap.2 ⟨m, mem_partsOf hm hof, hp.1⟩, hp.2⟩

lemma next_switchCase (h : Derived .switchStatement t)
    (hof : m.isOf .switchCase = true) : Next t (around ++ [t]) c := by
  have hcase : Derived .switchCase m := h.of_isOf (.of_mem hm) hof
  obtain ⟨d, around', q, hd, hlooks, hrs, rfl, -⟩ := exists_into hcase rfl hpth hc
  have hq : d.isOf .expression = true := by
    obtain ⟨_, _, _, -, -, rfl⟩ := hcase
    exact hlooks
  refine next_of_mem [m] ?_ hq rfl ((Tree.Within.of_mem hd).trans (.of_mem hm)) hrs (by simp)
  rw [positions_eq h]
  exact (mem_inTurn (mem_partsOf hd hq)).imp fun p hp =>
    ⟨mem_append_right _ (mem_flatMap.2 ⟨m, mem_partsOf hm hof, hp.1⟩), hp.2⟩

lemma not_path_of_default (h : Derived .switchStatement t)
    (hof : m.isOf .defaultCase = true) : False := by
  have hcase : Derived .defaultCase m := h.of_isOf (.of_mem hm) hof
  have ho : ∀ e ∈ production .defaultCase, Item.mentionsIn .expression e.body = false := by decide
  obtain ⟨d, around', q, hd, hlooks, -⟩ := exists_into hcase rfl hpth hc
  obtain ⟨e, p, cs, he, hcs, rfl⟩ := hcase
  exact Bool.false_ne_true ((ho e he).symm.trans (hcs.mentions_of_mem hd hlooks))

lemma next_arguments (h : Derived .primaryAtom t)
    (hof : m.isOf .arguments = true) : Next t (around ++ [t]) c := by
  have ho : Rule.MentionsOnly .arguments fun q => q = .expression := by decide
  obtain ⟨d, around', q, hd, -, hrs, rfl, hq, e, he, hmd⟩ :=
    exists_into (h.of_isOf (.of_mem hm) hof) rfl hpth hc
  cases ho e he q (Rule.mem_all q) hmd
  have hmem : ([m], d) ∈ valueParts t .primaryAtom :=
    mem_flatMap.2 ⟨m, mem_partsOf hm hof, mem_map.2 ⟨d, mem_partsOf hd hq, rfl⟩⟩
  refine next_of_mem [m] ?_ hq rfl ((Tree.Within.of_mem hd).trans (.of_mem hm)) hrs (by simp)
  rw [positions_eq h]
  exact mem_valuePositions hmem

lemma next_suffix (h : Derived .leftHandSide t) (hof : m.isOf .suffixOp = true) :
    Next t (around ++ [t]) c := by
  have ho : Rule.MentionsOnly .suffixOp fun q => q = .expression ∨ q = .arguments := by decide
  have honly' : Rule.MentionsOnly .arguments fun q => q = .expression := by decide
  have hsuf : Derived .suffixOp m := h.of_isOf (.of_mem hm) hof
  have hfd : ∀ via {d around'}, (via, d) ∈ valueParts t .leftHandSide →
      d.isOf .expression = true → d.Within m → d.Path Tree.looksAt around' c →
      around = around' ++ via → Next t (around ++ [t]) c := by
    rintro via d around' hmem hq hin hrs rfl
    refine next_of_mem via ?_ hq rfl (hin.trans (.of_mem hm)) hrs (by simp)
    rw [positions_eq h]
    exact mem_valuePositions hmem
  obtain ⟨d, around', q, hd, -, hrs, rfl, hq, e, he, hmd⟩ :=
    exists_into hsuf rfl hpth hc
  rcases ho e he q (Rule.mem_all q) hmd with rfl | rfl
  · refine hfd [m] ?_ hq (.of_mem hd) hrs rfl
    refine mem_append_right _ (mem_flatMap.2 ⟨m, mem_partsOf hm hof, ?_⟩)
    exact mem_append_left _ (mem_map.2 ⟨d, mem_partsOf hd hq, rfl⟩)
  · obtain ⟨a, around'', q', ha, -, hrest', rfl, hq', e', he', hmentioned'⟩ :=
      exists_into (hsuf.of_isOf (.of_mem hd) hq) rfl hrs hc
    cases honly' e' he' q' (Rule.mem_all q') hmentioned'
    refine hfd [d, m] ?_ hq' ((Tree.Within.of_mem ha).trans (.of_mem hd)) hrest' (by simp)
    refine mem_append_right _ (mem_flatMap.2 ⟨m, mem_partsOf hm hof, ?_⟩)
    refine mem_append_right _ (mem_flatMap.2 ⟨d, mem_partsOf hd hq, ?_⟩)
    exact mem_map.2 ⟨a, mem_partsOf ha hq', rfl⟩

omit hpth in
lemma next_inMember {k : Tree} (h : Derived .classDeclaration t) (hk : k ∈ m.children)
    (hkof : k.isOf r = true) (hr : r.isVisited = false) (hq : q.isBetween = false)
    (ho : r.MentionsOnly fun q' => q' = q ∨ q'.isBare = true)
    (hmem : ∀ d ∈ k.children, d.isOf q = true →
      ∃ p ∈ positionsOf t .classDeclaration, p.part = d ∧ p.via = [k, m])
    (hrs : k.Path Tree.looksAt around c) : Next t (around ++ [m] ++ [t]) c := by
  have hin : k.Within t := (Tree.Within.of_mem hk).trans (.of_mem hm)
  have hpt : Derived r k := h.of_isOf hin hkof
  obtain ⟨d, around', q', hd, -, hrest', rfl, hof, e, he, hmd⟩ :=
    exists_into hpt hr hrs hc
  rcases ho e he q' (Rule.mem_all q') hmd with rfl | hbare
  · refine next_of_mem [k, m] ?_ hof hq ((Tree.Within.of_mem hd).trans hin) hrest' (by simp)
    rw [positions_eq h]
    exact hmem d hd hof
  · exact (not_path_of_isBare (hpt.of_isOf (.of_mem hd) hof) hbare hrest' hc).elim

lemma next_member (h : Derived .classDeclaration t)
    (hof : m.isOf .classMember = true) : Next t (around ++ [t]) c := by
  have hmb : Derived .classMember m := h.of_isOf (.of_mem hm) hof
  obtain ⟨k, around', q, hk, hlooks, hrs, rfl, -⟩ := exists_into hmb rfl hpth hc
  have hkds : k.isOf .functionDeclaration = true ∨
      k.isOf .constantDeclaration = true ∧ k.markedType? = none := by
    obtain ⟨_, _, _, -, -, rfl⟩ := hmb
    exact hlooks
  obtain ⟨km, hkm, rfl⟩ := exists_kid hm hof
  rcases hkds with hfun | ⟨hconst, hmk⟩
  · obtain ⟨before, hbef⟩ := exists_before hkm (methodPositions t)
      (fun c m => methodBody t (check ·.tree) c.2 c.1 m) (do
        let c ← classHead t
        for m in t.kids .classMember do declareMember t (check ·.tree) c.2 c.1 m
        return c)
    refine next_inMember hm hc h hk hfun rfl (q := .block) rfl (by decide) (fun d hd hq => ?_) hrs
    exact (mem_inTurn (mem_partsOf hd hq)).imp fun p hp => ⟨mem_append_right _ (hbef p
      (mem_flatMap.2 ⟨k, mem_partsOf hk hfun, hp.1⟩)), hp.2⟩
  · obtain ⟨before, hbef⟩ := exists_before hkm (constantPositions t)
      (fun c m => declareMember t (check ·.tree) c.2 c.1 m) (classHead t)
    refine next_inMember hm hc h hk hconst rfl (q := .expression) rfl (by decide)
      (fun d hd hq => ?_) hrs
    exact (mem_inTurn (mem_partsOf hd hq)).imp fun p hp => ⟨mem_append_left _ (hbef p
      (mem_flatMap.2 ⟨k, mem_partsOf hk hconst, by rw [hmk]; exact hp.1⟩)), hp.2⟩

end Between

lemma eq_or_next (h : Derived r t) (hr : r.isBetween = false)
    (hpth : t.Path Tree.looksAt around c) (hc : c.isOneOf Rule.isVisited = true) :
    (around = [] ∧ c = t) ∨ Next t around c := by
  cases hpth with
  | here => exact .inl ⟨rfl, rfl⟩
  | @into _ m _ around hm hlooks hrs =>
    right
    rcases h.leaf_or_mentioned hm with ⟨tok, rfl⟩ | ⟨q, hof, e, he, hmd⟩
    · cases hrs with
      | here => cases hc
      | into hd => cases hd
    · rcases Rule.stepsTo_or r (Rule.mem_all r) hr e he q (Rule.mem_all q) hmd with
        ⟨hsp, hq⟩ | hbare | hbet
      · obtain ⟨p, hp, rfl, hvia⟩ := exists_direct h hm hof hsp
        exact ⟨p, hp, around, q, hof, hq, .of_mem hm, hrs, by rw [hvia, nil_append]⟩
      · exact (not_path_of_isBare (h.of_isOf (.of_mem hm) hof) hbare hrs hc).elim
      · simp only [mem_cons, Prod.mk.injEq, not_mem_nil, or_false] at hbet
        rcases hbet with ⟨rfl, rfl⟩ | ⟨rfl, rfl⟩ | ⟨rfl, rfl⟩ | ⟨rfl, rfl⟩ | ⟨rfl, rfl⟩ |
          ⟨rfl, rfl⟩ | ⟨rfl, rfl⟩
        · exact next_initializer hm hrs hc h hof
        · exact next_switchCase hm hrs hc h hof
        · exact (not_path_of_default hm hrs hc h hof).elim
        · exact next_member hm hrs hc h hof
        · -- The target of an assignment is not looked at.
          obtain ⟨_, _, _, -, -, rfl⟩ := h
          exact (Bool.false_ne_true (hlooks.symm.trans hof)).elim
        · exact next_suffix hm hrs hc h hof
        · exact next_arguments hm hrs hc h hof

/-! ### The way of the checker -/

/-- The checker, starting at a tree in a state, comes to another tree in another state. -/
inductive Reaches : Checker → Tree → List Tree → Tree → Checker → Prop
  | here (s : Checker) (t : Tree) : Reaches s t [] t s
  | into {s s0 σ : Checker} {t c : Tree} {around : List Tree} {p : Position} (hp : p ∈ positions t)
    (hbef : Gives p.before s () s0) (h : Reaches s0 p.part around c σ) :
    Reaches s t (around ++ (p.via ++ [t])) c σ

lemma Surrounds.refl (c : Tree) (s : Checker) : Surrounds [] c s s :=
  ⟨(Bool.or_false _).symm, fun _ => rfl, fun _ => rfl⟩

lemma Surrounds.trans {above : List Tree} {d : Tree} {s0 : Checker} (h : Surrounds above d s s0)
    (h' : Surrounds around c s0 σ) (hc : c.isOneOf Rule.isInExpression = false →
      d.isOneOf Rule.isInExpression = false) : Surrounds (around ++ above) c s σ where
  function := by
    rw [h'.function, h.function, any_append, Bool.or_assoc, Bool.or_comm (above.any _)]
  loopDepth hno := by
    rw [h'.loopDepth hno, h.loopDepth (hc hno), filter_append, length_append]
    omega
  scopes hno := by
    rw [h'.scopes hno, h.scopes (hc hno), filter_append, length_append]
    omega

lemma isInExpression_of_within (h : Derived r t) (hr : r.isInExpression = true)
    (hc : c.Within t) (hvd : c.isOneOf Rule.isVisited = true) :
    c.isOneOf Rule.isInExpression = true := by
  have hall := h.everywhere_rule Rule.closed_isInExpression hr c hc
  cases c with
  | node tag pos cs => exact hall tag rfl
  | leaf | bad => cases hvd

/-- Everything that is looked at on the way down is reached and accepted. -/
lemma exists_reaches (h : Derived r t) (hr : r.isBetween = false) (hs : Accepted t s)
    (hpth : t.Path Tree.looksAt around c) (hc : c.isOneOf Rule.isVisited = true) :
    ∃ σ, Reaches s t around c σ ∧ Accepted c σ ∧ Surrounds around c s σ := by
  induction hn : around.length using Nat.strong_induction_on generalizing t s r around with
  | _ n ih =>
  rcases eq_or_next h hr hpth hc with ⟨rfl, rfl⟩ | ⟨p, hp, around', q, hof, hq, hin, hrs, rfl⟩
  · exact ⟨s, .here s c, hs, .refl c s⟩
  · obtain ⟨s0, hbef, hacc, hsur⟩ := arrives_of_mem h hs hp
    have hpt : Derived q p.part := h.of_isOf hin hof
    have hlt : around'.length < n := by
      rw [← hn, length_append, length_append, length_singleton]
      omega
    obtain ⟨σ, hrea, hσ, hsurrounds'⟩ := ih _ hlt hpt hq hacc hrs rfl
    refine ⟨σ, .into hp hbef hrea, hσ, hsur.trans hsurrounds' fun hno => ?_⟩
    rw [isOneOf_eq hpt]
    by_contra hex
    rw [isInExpression_of_within hpt ((Bool.not_eq_false _).mp hex) hrs.within hc] at hno
    cases hno

end Check

namespace Tree

/-- Whether a tree is not the case of a `switch`. -/
def IsNoCase (t : Tree) : Prop := t.isOf .switchCase = false ∧ t.isOf .defaultCase = false

end Tree

namespace Check

variable {t c : Tree} {r : Rule} {around : List Tree}

lemma isOf_of_rule (h : t.tag?.map Tag.rule = some r) : t.isOf r = true := by
  cases t with
  | node tag pos cs =>
    cases h
    exact beq_self_eq_true _
  | leaf | bad => cases h

/-- Statements that are not in the case of a `switch` are looked at. -/
lemma looksAt_of_path (h : Derived r t) (hpth : t.Path (fun a _ => a.IsNoCase) around c)
    (hc : c.isOf .statement = true ∨ c.isOf .assignment = true) : t.Path Tree.looksAt around c := by
  -- Fields and expressions have no statements in them.
  have hsim : ∀ {q : Rule} {d : Tree}, Rule.isSimple q = true → d.isOf q = true → d.Within t →
      ¬ c.Within d := by
    intro q d hq hof hd hin
    have hall := (h.of_isOf hd hof).everywhere_rule Rule.closed_isSimple hq c hin
    rcases hc with hc | hc <;> obtain ⟨l, p, cs, rfl⟩ := Tree.exists_of_isOf hc <;>
      cases hall _ rfl
  refine hpth.imp fun a d ha hd hin hedge => ?_
  have hdwi := (Tree.Within.of_mem hd).trans ha
  unfold Tree.looksAt
  split
  · rename_i hru
    exact absurd (isOf_of_rule hru) (Bool.eq_false_iff.1 hedge.1)
  · rename_i hru
    exact absurd (isOf_of_rule hru) (Bool.eq_false_iff.1 hedge.2)
  · rename_i hru
    have hmb : Derived .classMember a := h.of_isOf ha (isOf_of_rule hru)
    obtain ⟨l, p, q, l', p', cs, rfl, hq⟩ := eq_of_member hmb
    cases mem_singleton.1 hd
    rcases hq with rfl | rfl | rfl
    · exact .inl rfl
    · exact absurd hin (hsim rfl (beq_self_eq_true _) hdwi)
    · exact absurd hin (hsim rfl (beq_self_eq_true _) hdwi)
  · by_contra htar
    exact hsim rfl ((Bool.not_eq_false _).mp htar) hdwi hin
  · trivial

end Check

end Compiscript
