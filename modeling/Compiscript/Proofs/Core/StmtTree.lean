import Compiscript.Proofs.Core.ExprTree
import Compiscript.Proofs.Core.StmtCode

/-!
# Code for Statement Trees

The generator makes code for every statement of the core, wherever it stands in
a parse tree, and for a whole program.

What is said of the nodes holds for every way to read trees as statements that
agrees with `phrase?` on whatever is none.
-/

namespace Compiscript.Core

open List Compiscript.Tree

open Machine Tac Gen

variable {V : Type} [DecidableEq V] {A : Arith V}

/-- The generator turns a tree into code for a statement. -/
def StmtTranslates (A : Arith V) (t : Tree) (st : Stmt) : Prop :=
  ∀ (p : Temps) (n : Nat), p.Kept →
    ∃ v b p' n', Emits (generate t) p n v b p' n' ∧ StmtCodes A st p n b p' n'

/-- No name in the expressions of a statement looks like a temporary. -/
def Stmt.Plain : Stmt → Prop
  | .skip => True
  | .seq a b => a.Plain ∧ b.Plain
  | .declare _ e | .assign _ e | .print e => e.Plain
  | .block s => s.Plain
  | .branch e a b => e.Plain ∧ a.Plain ∧ b.Plain
  | .loop e s => e.Plain ∧ s.Plain

lemma Stmt.Visible.plain {s : Stmt} {visible : List String} (h : s.Visible visible)
    (hvb : ∀ x ∈ visible, isTempName x = false)
    (hdecl : ∀ x ∈ s.declared, isTempName x = false) : s.Plain := by
  induction s generalizing visible with
  | skip => trivial
  | seq a b iha ihb =>
    rw [Stmt.declared, forall_mem_append] at hdecl
    refine ⟨iha h.1 hvb hdecl.1, ihb h.2 ?_ hdecl.2⟩
    rw [forall_mem_append]
    exact ⟨fun x hx => hdecl.1 x (a.binds_subset hx), hvb⟩
  | declare x e => exact fun y hy => hvb y (h y hy)
  | assign x e => exact fun y hy => hvb y (h.2 y hy)
  | print e => exact fun y hy => hvb y (h y hy)
  | block s ih => exact ih h hvb hdecl
  | branch e a b iha ihb =>
    rw [Stmt.declared, forall_mem_append] at hdecl
    exact ⟨fun y hy => hvb y (h.1 y hy), iha h.2.1 hvb hdecl.1,
      ihb h.2.2 hvb hdecl.2⟩
  | loop e s ih => exact ⟨fun y hy => hvb y (h.1 y hy), ih h.2 hvb hdecl⟩

/-- A way to read trees, which is the usual one for all that is no statement. -/
structure Reading (read : Tree → Option Phrase) : Prop where
  isOf {c : Tree} {part : Phrase} (h : read c = some part) (r : Rule) :
    c.isOf r = decide (part.rule? = some r)
  usual {c : Tree} {part : Phrase} (h : read c = some part) (hpart : ∀ r s, part ≠ .stmt r s) :
    phrase? c = some part

lemma reading_phrase : Reading phrase? := ⟨isOf_of_phrase, fun h _ => h⟩

section Nodes

variable {t c : Tree} {e : Expr} {st : Stmt} {start : Pos} {read : Tree → Option Phrase}

namespace Reading

variable (hrd : Reading read)

include hrd

lemma eq_leaf {tok : Token} (h : read c = some (.token tok)) : c = .leaf tok :=
  eq_leaf_of_phrase (hrd.usual h nofun)

lemma expr {r : Rule} (h : read c = some (.expr r e)) : phrase? c = some (.expr r e) :=
  hrd.usual h nofun

lemma init (h : read c = some (.init e)) : phrase? c = some (.init e) := hrd.usual h nofun

end Reading

lemma visitAll_eq (t : Tree) : visitAll (fun k : t.Sub => generate k.tree) =
      t.children.foldlM (fun _ c => generate c) .none := by
  rw [visitAll, ← subs_map_tree t, foldlM_map]

lemma generate_leaf (tok : Token) : generate (.leaf tok) = pure .none := generate_eq _

/-- A tree that has no code of its own. -/
lemma StmtTranslates.pass (hc : StmtTranslates A c st)
    (h : ∀ p n v b p' n', Emits (generate c) p n v b p' n' → Emits (generate t) p n v b p' n') :
    StmtTranslates A t st := by
  intro p n hp
  obtain ⟨v, b, p', n', hem, hcds⟩ := hc p n hp
  exact ⟨v, b, p', n', h p n v b p' n' hem, hcds⟩

lemma stmtTranslates_statement (ht : t = .node ⟨.statement, none⟩ start [c])
    (ih : StmtTranslates A c st) : StmtTranslates A t st := by
  refine ih.pass fun p n v b p' n' h => ?_
  rw [generate_of_eq ht]
  change Emits (visitAll _) p n v b p' n'
  rw [visitAll_eq, ht]
  change Emits (generate c >>= pure) p n v b p' n'
  rw [bind_pure]
  exact h

lemma StmtTranslates.block (h : StmtTranslates A t st) : StmtTranslates A t (.block st) := by
  intro p n hp
  obtain ⟨v, b, p', n', hem, hcds⟩ := h p n hp
  exact ⟨v, b, p', n', hem, hcds.block⟩

variable {cs : List Tree} {parts : List Phrase} {tok : Token} {x : String} {t1 t2 : Token}

lemma exists_stmtCodes (hrd : Reading read) (hcs : Forall₂ (read · = some ·) cs parts)
    (hst : statements? parts = some st) (hpl : st.Plain)
    (ih : ∀ c ∈ cs, ∀ s, read c = some (.stmt .statement s) → s.Plain → StmtTranslates A c s)
    (p : Temps) (n : Nat) (v0 : Value) (hp : p.Kept) :
    ∃ v b p' n', Emits (cs.foldlM (fun _ c => generate c) v0) p n v b p' n' ∧
      StmtCodes A st p n b p' n' := by
  fun_induction statements? parts generalizing st cs p n v0 with
  | case1 tok =>
    cases hst
    rcases hcs with _ | ⟨hc, _ | _⟩
    cases hrd.eq_leaf hc
    refine ⟨.none, [], p, n, ?_, .skip hp n⟩
    change Emits (generate (.leaf tok) >>= pure) p n .none [] p n
    rw [bind_pure, generate_leaf]
    exact .pure _ p n
  | case2 s rest ihrest =>
    obtain ⟨s', hs', rfl⟩ := Option.map_eq_some_iff.1 hst
    rcases hcs with _ | @⟨c, _, cs, _, hc, hcs⟩
    obtain ⟨v, b, p1, n1, hem, hcds⟩ := ih c (.head _) s hc hpl.1 p n hp
    obtain ⟨v', b', p2, n2, hemits', hcodes'⟩ := ihrest hcs hs' hpl.2
      (fun c' hc' => ih c' (.tail _ hc')) p1 n1 v hcds.kept
    exact ⟨v', b ++ b', p2, n2, hem.bind hemits', hcds.seq hcodes'⟩
  | case3 => cases hst

lemma stmtTranslates_block (hrd : Reading read)
    (ht : t = .node ⟨.block, none⟩ start (.leaf tok :: cs))
    (hcs : Forall₂ (read · = some ·) cs parts) (hst : statements? parts = some st) (hpl : st.Plain)
    (ih : ∀ c ∈ cs, ∀ s, read c = some (.stmt .statement s) → s.Plain → StmtTranslates A c s) :
    StmtTranslates A t st := by
  intro p n hp
  obtain ⟨v, b, p', n', hem, hcds⟩ := exists_stmtCodes hrd hcs hst hpl ih p n .none hp
  refine ⟨v, b, p', n', ?_, hcds⟩
  rw [generate_of_eq ht]
  change Emits (visitAll _) p n v b p' n'
  rw [visitAll_eq, ht]
  change Emits (generate (.leaf tok) >>= fun v => cs.foldlM (fun _ c => generate c) v) _ _ _ _ _ _
  rw [generate_leaf, pure_bind]
  exact hem

lemma exists_of_init (h : phrase? c = some (.init e)) :
    ∃ tag start tok d, c = .node tag start [.leaf tok, d] ∧
      phrase? d = some (.expr .expression e) := by
  obtain ⟨tag, start, cs, parts, rfl, hcs, h⟩ := exists_parts h rfl
  unfold assemble at h
  split at h
  · cases h
  · cases h
  · cases h
  · injection h with h
    cases h
    rcases hcs with _ | ⟨h1, _ | ⟨hd, _ | _⟩⟩
    cases eq_leaf_of_phrase h1
    exact ⟨_, _, _, _, rfl, hd⟩
  · split at h
    · cases h
    · obtain ⟨_, _, hs⟩ := Option.map_eq_some_iff.1 h
      cases hs

lemma stmtTranslates_declare {k : Token}
    (ht : t = .node ⟨.variableDeclaration, none⟩ start (.leaf k :: .leaf tok :: cs))
    (hk : k.kind ≠ .identifier) (hx : nameOf? tok = some x)
    (hkid : (cs.filter (·.isOf .initializer)).head? = some c) (hc : phrase? c = some (.init e))
    (hpl : e.Plain) : StmtTranslates A t (.declare x e) := by
  obtain ⟨tag, start', tok', d, hcd, hd⟩ := exists_of_init hc
  obtain ⟨ki, hki, hkic⟩ := kid?_eq_some (t := t) (c := c) (r := .initializer)
    (by rw [ht, children_node, filter_cons_of_neg (by simp),
      filter_cons_of_neg (by simp)]; exact hkid)
  obtain ⟨ke, hke, hked⟩ := kid?_eq_some (t := ki.tree) (c := d) (r := .expression)
    (by rw [hkic, hcd]; simp [isOf_of_phrase hd, Phrase.rule?])
  obtain ⟨hkd, rfl, -⟩ := kind_of_name hx
  have hnm : t.tokenText? .identifier = some tok.text := by
    rw [ht, tokenText?, tokenTexts, children_node,
      filter_cons_of_neg (by simp [isToken, Tree.token?, hk]),
      filter_cons_of_pos (by simp [isToken, Tree.token?, hkd]), map_cons, head?_cons, Tree.text]
  intro p n hp
  obtain ⟨v, b, p1, n1, hem, hcds⟩ := translates_of_phrase A d hd hpl p n hp
  refine ⟨.none, _, _, _, ?_, .declare hp hcds hpl _⟩
  rw [generate_of_eq ht]
  change Emits (declareVariable t _) _ _ _ _ _ _
  refine (Emits.tokenText hnm p n).silent (Emits.get fun g hfun _ => ?_)
  rw [hfun, hki, Option.bind_some, hke]
  rw [← hked] at hem
  change Emits (generate ke.tree >>= _) _ _ _ _ _ _
  exact hem.bind ((Emits.move v _ _ _).bind ((Emits.release v _ _).silent (Emits.pure _ _ _)))

lemma stmtTranslates_assign
    (ht : t = .node ⟨.assignment, none⟩ start [.leaf tok, .leaf t1, c, .leaf t2])
    (hx : nameOf? tok = some x) (hc : phrase? c = some (.expr .expression e)) (hpl : e.Plain) :
    StmtTranslates A t (.assign x e) := by
  obtain ⟨k, hk, hkc⟩ := kids_eq_singleton (t := t) (c := c) (r := .expression)
    (by simp [ht, isOf_of_phrase hc, Phrase.rule?])
  obtain ⟨hkd, rfl, -⟩ := kind_of_name hx
  intro p n hp
  obtain ⟨v, b, p1, n1, hem, hcds⟩ := translates_of_phrase A c hc hpl p n hp
  refine ⟨.none, _, _, _, ?_, .assign hp hcds hpl _⟩
  rw [← hkc] at hem
  rw [generate_of_eq ht]
  change Emits (assignment t _) _ _ _ _ _ _
  rw [assignment, tokenText?_of_leaf ht hkd, hk]
  exact hem.bind ((Emits.move v _ _ _).bind ((Emits.release v _ _).silent (Emits.pure _ _ _)))

lemma printed_of_held {p : Temps} {v : Value} (h : p.Held v) : printed v = v.operand := by
  cases v with
  | none => exact h.elim
  | text x => rfl
  | temp n => rfl

lemma stmtTranslates_print {t3 t4 : Token}
    (ht : t = .node ⟨.printStatement, none⟩ start [.leaf t1, .leaf t2, c, .leaf t3, .leaf t4])
    (hc : phrase? c = some (.expr .expression e)) (hpl : e.Plain) :
    StmtTranslates A t (.print e) := by
  obtain ⟨k, hk, hkc⟩ := kid?_eq_some (t := t) (c := c) (r := .expression)
    (by simp [ht, isOf_of_phrase hc, Phrase.rule?])
  intro p n hp
  obtain ⟨v, b, p1, n1, hem, hcds⟩ := translates_of_phrase A c hc hpl p n hp
  refine ⟨.none, _, _, _, ?_, .print hp hcds hpl⟩
  rw [← hkc] at hem
  rw [generate_of_eq ht]
  change Emits (printStatement t _) _ _ _ _ _ _
  refine (Emits.visitPart hk hem).bind ?_
  rw [printed_of_held hcds.held]
  exact (Emits.emit _ _ _ _ _ _).bind ((Emits.release v _ _).silent (Emits.pure _ _ _))

section Branch

variable {a b : Tree} {x y : Stmt} {t1 t2 t3 t4 : Token} (hrd : Reading read)
  (hc : phrase? c = some (.expr .expression e)) (hpl : e.Plain)
  (ha : read a = some (.stmt .block x)) (iha : StmtTranslates A a x)

include hrd hc hpl ha iha

lemma stmtTranslates_branch
    (ht : t = .node ⟨.ifStatement, none⟩ start [.leaf t1, .leaf t2, c, .leaf t3, a]) :
    StmtTranslates A t (.branch e x .skip) := by
  obtain ⟨kc, hkc, hc'⟩ := kid?_eq_some (t := t) (c := c) (r := .expression)
    (by simp [ht, isOf_of_phrase hc, hrd.isOf ha, Phrase.rule?])
  obtain ⟨ka, hka, ha'⟩ := kids_eq_singleton (t := t) (c := a) (r := .block)
    (by simp [ht, isOf_of_phrase hc, hrd.isOf ha, Phrase.rule?])
  intro p n hp
  obtain ⟨v, be, p1, n1, hem, hcds⟩ := translates_of_phrase A c hc hpl p n hp
  obtain ⟨va, ba, p2, n2, hemita, hcodea⟩ := iha _ (n1 + 2) hcds.kept_giveBack
  refine ⟨.none, _, _, _, ?_, .branch hp hcds hpl hcodea (.skip hcodea.kept n2)⟩
  rw [← hc'] at hem
  rw [← ha'] at hemita
  rw [generate_of_eq ht]
  change Emits (ifStatement t _) _ _ _ _ _ _
  rw [ifStatement, kidAt?, kidAt?, hka]
  refine (Emits.visitPart hkc hem).bind ?_
  refine (Emits.freshLabel _ _).silent ((Emits.freshLabel _ _).silent ?_)
  refine (Emits.emit _ _ _ _ _ _).bind ((Emits.release v _ _).silent ?_)
  refine (Emits.visitPart rfl hemita).bind ((Emits.jump _ _ _).bind ((Emits.label _ _ _).bind ?_))
  exact (Emits.label _ _ _).bind (Emits.pure _ _ _)

lemma stmtTranslates_branchElse (ht : t = .node ⟨.ifStatement, none⟩ start
      [.leaf t1, .leaf t2, c, .leaf t3, a, .leaf t4, b])
    (hb : read b = some (.stmt .block y)) (ihb : StmtTranslates A b y) :
    StmtTranslates A t (.branch e x y) := by
  obtain ⟨kc, hkc, hc'⟩ := kid?_eq_some (t := t) (c := c) (r := .expression)
    (by simp [ht, isOf_of_phrase hc, hrd.isOf ha, hrd.isOf hb, Phrase.rule?])
  obtain ⟨ka, kb, hkids, ha', hb'⟩ := kids_eq_pair (t := t) (c := a) (d := b) (r := .block)
    (by simp [ht, isOf_of_phrase hc, hrd.isOf ha, hrd.isOf hb, Phrase.rule?])
  intro p n hp
  obtain ⟨v, be, p1, n1, hem, hcds⟩ := translates_of_phrase A c hc hpl p n hp
  obtain ⟨va, ba, p2, n2, hemita, hcodea⟩ := iha _ (n1 + 2) hcds.kept_giveBack
  obtain ⟨vb, bb, p3, n3, hemitb, hcodeb⟩ := ihb p2 n2 hcodea.kept
  refine ⟨.none, _, _, _, ?_, .branch hp hcds hpl hcodea hcodeb⟩
  rw [← hc'] at hem
  rw [← ha'] at hemita
  rw [← hb'] at hemitb
  rw [generate_of_eq ht]
  change Emits (ifStatement t _) _ _ _ _ _ _
  rw [ifStatement, kidAt?, kidAt?, hkids]
  refine (Emits.visitPart hkc hem).bind ?_
  refine (Emits.freshLabel _ _).silent ((Emits.freshLabel _ _).silent ?_)
  refine (Emits.emit _ _ _ _ _ _).bind ((Emits.release v _ _).silent ?_)
  refine (Emits.visitPart rfl hemita).bind ((Emits.jump _ _ _).bind ((Emits.label _ _ _).bind ?_))
  exact hemitb.bind ((Emits.label _ _ _).bind (Emits.pure _ _ _))

lemma stmtTranslates_loop
    (ht : t = .node ⟨.whileStatement, none⟩ start [.leaf t1, .leaf t2, c, .leaf t3, a]) :
    StmtTranslates A t (.loop e x) := by
  obtain ⟨kc, hkc, hc'⟩ := kid?_eq_some (t := t) (c := c) (r := .expression)
    (by simp [ht, isOf_of_phrase hc, hrd.isOf ha, Phrase.rule?])
  obtain ⟨ka, hka, ha'⟩ := kid?_eq_some (t := t) (c := a) (r := .block)
    (by simp [ht, isOf_of_phrase hc, hrd.isOf ha, Phrase.rule?])
  intro p n hp
  obtain ⟨v, be, p1, n1, hem, hcds⟩ := translates_of_phrase A c hc hpl p (n + 2) hp
  obtain ⟨va, ba, p2, n2, hemita, hcodea⟩ := iha _ n1 hcds.kept_giveBack
  refine ⟨.none, _, _, _, ?_, .loop hp hcds hpl hcodea⟩
  rw [← hc'] at hem
  rw [← ha'] at hemita
  rw [generate_of_eq ht]
  change Emits (whileStatement t _) _ _ _ _ _ _
  refine (Emits.freshLabel _ _).silent ((Emits.freshLabel _ _).silent ?_)
  refine (Emits.label _ _ _).bind ((Emits.visitPart hkc hem).bind ?_)
  refine (Emits.emit _ _ _ _ _ _).bind ((Emits.release v _ _).silent ?_)
  refine (Emits.visitPart hka hemita).bind ((Emits.jump _ _ _).bind ?_)
  exact (Emits.label _ _ _).bind (Emits.pure _ _ _)

end Branch

end Nodes

variable {parts : List Phrase} {st : Stmt} {tag : Tag} {r : Rule}

lemma exists_of_declaration {tok : Token}
    (h : declaration? tok parts = some st) : ∃ x e, nameOf? tok = some x ∧ st = .declare x e ∧
      ∃ last, parts = [.init e, .token last] ∨ parts = [.mark .typeMark, .init e, .token last] := by
  unfold declaration? at h
  split at h
  · obtain ⟨x, hx, rfl⟩ := Option.map_eq_some_iff.1 h
    exact ⟨x, _, hx, rfl, _, .inl rfl⟩
  · obtain ⟨x, hx, rfl⟩ := Option.map_eq_some_iff.1 h
    exact ⟨x, _, hx, rfl, _, .inr rfl⟩
  · cases h

/-- The nodes of statements, a program apart. -/
lemma stmtTranslates_node {read : Tree → Option Phrase} (hrd : Reading read)
    {start : Pos} {cs : List Tree} (hcs : Forall₂ (read · = some ·) cs parts)
    (h : assembleStmt tag parts = some st) (hru : tag.rule ≠ .program) (hpl : st.Plain)
    (ih : ∀ c ∈ cs, ∀ r s, r ≠ .program → read c = some (.stmt r s) → s.Plain →
      StmtTranslates A c s) : StmtTranslates A (.node tag start cs) st := by
  unfold assembleStmt at h
  split at h
  · -- a declaration
    split at h
    · cases h
    · rename_i hk
      obtain ⟨x, e, hx, rfl, last, hps⟩ := exists_of_declaration h
      rcases hcs with _ | ⟨h1, _ | ⟨h2, hcs⟩⟩
      cases hrd.eq_leaf h1
      cases hrd.eq_leaf h2
      rcases hps with rfl | rfl
      · rcases hcs with _ | ⟨hc, _ | ⟨h3, _ | _⟩⟩
        exact stmtTranslates_declare rfl hk hx (by simp [hrd.isOf hc, Phrase.rule?])
          (hrd.init hc) hpl
      · rcases hcs with _ | ⟨hm, _ | ⟨hc, _ | ⟨h3, _ | _⟩⟩⟩
        exact stmtTranslates_declare rfl hk hx
          (by simp [hrd.isOf hm, hrd.isOf hc, Phrase.rule?]) (hrd.init hc) hpl
  · -- an assignment
    obtain ⟨x, hx, rfl⟩ := Option.map_eq_some_iff.1 h
    rcases hcs with _ | ⟨h1, _ | ⟨h2, _ | ⟨hc, _ | ⟨h3, _ | _⟩⟩⟩⟩
    cases hrd.eq_leaf h1
    cases hrd.eq_leaf h2
    cases hrd.eq_leaf h3
    exact stmtTranslates_assign rfl hx (hrd.expr hc) hpl
  · -- printing
    cases h
    rcases hcs with _ | ⟨h1, _ | ⟨h2, _ | ⟨hc, _ | ⟨h3, _ | ⟨h4, _ | _⟩⟩⟩⟩⟩
    cases hrd.eq_leaf h1
    cases hrd.eq_leaf h2
    cases hrd.eq_leaf h3
    cases hrd.eq_leaf h4
    exact stmtTranslates_print rfl (hrd.expr hc) hpl
  · -- a block
    rcases hcs with _ | ⟨h1, hcs⟩
    cases hrd.eq_leaf h1
    exact stmtTranslates_block hrd rfl hcs h hpl
      fun c hc s => ih c (.tail _ hc) _ s (by decide)
  · -- a branch, without an alternative and with one
    cases h
    rcases hcs with _ | ⟨h1, _ | ⟨h2, _ | ⟨hc, _ | ⟨h3, _ | ⟨ha, _ | _⟩⟩⟩⟩⟩
    cases hrd.eq_leaf h1
    cases hrd.eq_leaf h2
    cases hrd.eq_leaf h3
    exact stmtTranslates_branch hrd (hrd.expr hc) hpl.1 ha
      (ih _ (by simp) _ _ (by decide) ha hpl.2.1) rfl
  · cases h
    rcases hcs with _ | ⟨h1, _ | ⟨h2, _ | ⟨hc, _ | ⟨h3, _ | ⟨ha, _ | ⟨h4, _ | ⟨hb, _ | _⟩⟩⟩⟩⟩⟩⟩
    cases hrd.eq_leaf h1
    cases hrd.eq_leaf h2
    cases hrd.eq_leaf h3
    cases hrd.eq_leaf h4
    exact stmtTranslates_branchElse hrd (hrd.expr hc) hpl.1 ha
      (ih _ (by simp) _ _ (by decide) ha hpl.2.1) rfl hb
      (ih _ (by simp) _ _ (by decide) hb hpl.2.2)
  · -- a loop
    cases h
    rcases hcs with _ | ⟨h1, _ | ⟨h2, _ | ⟨hc, _ | ⟨h3, _ | ⟨ha, _ | _⟩⟩⟩⟩⟩
    cases hrd.eq_leaf h1
    cases hrd.eq_leaf h2
    cases hrd.eq_leaf h3
    exact stmtTranslates_loop hrd (hrd.expr hc) hpl.1 ha
      (ih _ (by simp) _ _ (by decide) ha hpl.2) rfl
  · -- a statement that is a block
    cases h
    rcases hcs with _ | ⟨hc, _ | _⟩
    exact (stmtTranslates_statement rfl (ih _ (.head _) _ _ (by decide) hc hpl)).block
  -- the other statements
  iterate 5
    · cases h
      rcases hcs with _ | ⟨hc, _ | _⟩
      exact stmtTranslates_statement rfl (ih _ (.head _) _ _ (by decide) hc hpl)
  · exact absurd rfl hru
  · cases h

lemma assembleStmt_of_assemble (h : assemble tag parts = some (.stmt r st)) :
    tag.rule = r ∧ assembleStmt tag parts = some st := by
  have hru := assemble_rule h
  injection hru with hru
  refine ⟨hru.symm, ?_⟩
  unfold assemble at h
  split at h
  iterate 4 cases h
  split at h
  · cases h
  · obtain ⟨s, hs, heq⟩ := Option.map_eq_some_iff.1 h
    injection heq with _ heq
    rw [hs, heq]

/-- A tree is translated to code for the statement it comes to. -/
lemma stmtTranslates_of_phrase (A : Arith V) (t : Tree)
    (h : phrase? t = some (.stmt r st)) (hr : r ≠ .program) (hpl : st.Plain) :
    StmtTranslates A t st := by
  induction hsz : sizeOf t using Nat.strong_induction_on generalizing t r st with
  | _ size ih =>
    obtain ⟨tag, start, cs, parts, rfl, hcs, h⟩ := exists_parts h rfl
    obtain ⟨rfl, hst⟩ := assembleStmt_of_assemble h
    refine stmtTranslates_node reading_phrase hcs hst hr hpl ?_
    intro c hc r s hr hphr hpl
    refine ih (sizeOf c) ?_ c hphr hr hpl rfl
    rw [← hsz]
    exact sizeOf_child_lt hc

/-- A statement of the core declares no function and no class. -/
lemma isDeclaration_of_phrase {c : Tree} {s : Stmt}
    (h : phrase? c = some (.stmt .statement s)) : isDeclaration c = false := by
  obtain ⟨tag, start, cs, parts, rfl, hcs, h⟩ := exists_parts h rfl
  obtain ⟨hru, hst⟩ := assembleStmt_of_assemble h
  unfold assembleStmt at hst
  split at hst
  -- rules other than that of a statement
  iterate 7 cases hru
  iterate 6
    · rcases hcs with _ | ⟨hc, _ | _⟩
      simp [isDeclaration, hasKid, isOf_of_phrase hc, Phrase.rule?]
  · cases hru
  · cases hst

/-- Statements that are translated and declare no function and no class. -/
def TranslatesStatements (A : Arith V) (read : Tree → Option Phrase) : Prop :=
  ∀ c s, read c = some (.stmt .statement s) →
    isDeclaration c = false ∧ (s.Plain → StmtTranslates A c s)

lemma translatesStatements_phrase (A : Arith V) : TranslatesStatements A phrase? :=
  fun c _ h => ⟨isDeclaration_of_phrase h, stmtTranslates_of_phrase A c h (by decide)⟩

section Program

variable {read : Tree → Option Phrase} (hrd : Reading read) (hall : TranslatesStatements A read)

include hrd hall

variable {cs : List Tree} {parts : List Phrase} {st : Stmt}

lemma isDeclaration_of_statements (hcs : Forall₂ (read · = some ·) cs parts)
    (hst : statements? parts = some st) : ∀ c ∈ cs, isDeclaration c = false := by
  fun_induction statements? parts generalizing st cs with
  | case1 tok =>
    rcases hcs with _ | ⟨hc, _ | _⟩
    cases hrd.eq_leaf hc
    exact fun c hc => mem_singleton.1 hc ▸ rfl
  | case2 s rest ih =>
    obtain ⟨s', hs', rfl⟩ := Option.map_eq_some_iff.1 hst
    rcases hcs with _ | ⟨hc, hcs⟩
    exact forall_mem_cons.2 ⟨(hall _ _ hc).1, ih hcs hs'⟩
  | case3 => cases hst

lemma exists_visitStatements {t : Tree} {ks : List t.Sub} (hcs : Forall₂ (read · = some ·) cs parts)
    (hst : statements? parts = some st) (hpl : st.Plain)
    (hks : ks.map (·.tree) = cs.filter (·.isOf .statement)) (p : Temps) (n : Nat) (hp : p.Kept) :
    ∃ b p' n', Emits (visitStatements t (generate ·.tree) ks) p n () b p' n' ∧
      StmtCodes A st p n b p' n' := by
  fun_induction statements? parts generalizing st cs ks p n with
  | case1 tok =>
    cases hst
    rcases hcs with _ | ⟨hc, _ | _⟩
    cases hrd.eq_leaf hc
    cases map_eq_nil_iff.1 hks
    exact ⟨[], p, n, .pure _ p n, .skip hp n⟩
  | case2 s rest ihrest =>
    obtain ⟨s', hs', rfl⟩ := Option.map_eq_some_iff.1 hst
    rcases hcs with _ | @⟨c, _, cs, _, hc, hcs⟩
    rw [filter_cons_of_pos (by simp [hrd.isOf hc, Phrase.rule?])] at hks
    obtain ⟨k, ks, rfl, rfl, hrs⟩ := map_eq_cons_iff.1 hks
    obtain ⟨v, b, p1, n1, hem, hcds⟩ := (hall _ _ hc).2 hpl.1 p n hp
    obtain ⟨b', p2, n2, hemits', hcodes'⟩ := ihrest hcs hs' hpl.2 hrs p1 n1 hcds.kept
    exact ⟨b ++ b', p2, n2, hem.bind hemits', hcds.seq hcodes'⟩
  | case3 => cases hst

end Program

variable {l : Option Label} {parts : List Phrase} {st : Stmt} {t : Tree}

lemma statements_of_program
    (h : assembleStmt ⟨.program, l⟩ parts = some st) : statements? parts = some st := by
  cases l with
  | none => exact h
  | some l => cases h

/-- The code of a whole program, around that of its statements. -/
def programCode (b : List Instr) : List Instr :=
  .of .label (.text "program_start") .none .none ::
    (b ++ [.of .label (.text "program_end") .none .none])

/-- All statements of a program of the core stand between the two labels. -/
lemma exists_programNode {start : Pos} {cs : List Tree}
    {read : Tree → Option Phrase} (hrd : Reading read)
    (hall : TranslatesStatements A read) (ht : t = .node ⟨.program, l⟩ start cs)
    (hcs : Forall₂ (read · = some ·) cs parts)
    (hst : statements? parts = some st) (hpl : st.Plain) :
    ∃ b p n, Emits (generate t) .empty 0 .none (programCode b) p n ∧
      StmtCodes A st .empty 0 b p n := by
  have hkids : (t.kids .statement).map (·.tree) = cs.filter (·.isOf .statement) := by
    rw [kids_map_tree, ht, children_node]
  obtain ⟨b, p, n, hem, hcds⟩ :=
    exists_visitStatements hrd hall hcs hst hpl hkids .empty 0 Temps.kept_empty
  refine ⟨b, p, n, ?_, hcds⟩
  have hstmt : ∀ k ∈ t.kids .statement, isDeclaration k.tree = false := by
    intro k hk
    have hmem : k.tree ∈ cs.filter (·.isOf .statement) := hkids ▸ mem_map_of_mem hk
    exact isDeclaration_of_statements hrd hall hcs hst k.tree (mem_of_mem_filter hmem)
  have hno : (t.kids .statement).partition (fun s => isDeclaration s.tree) =
      ([], t.kids .statement) := by
    rw [partition_eq_filter_filter, filter_eq_nil_iff.2, filter_eq_self.2]
    · simpa using hstmt
    · simpa using hstmt
  rw [generate_of_eq ht]
  change Emits (Gen.program t _) _ _ _ _ _ _
  rw [Gen.program, hno]
  exact (Emits.label _ _ _).bind (hem.bind ((Emits.label _ _ _).bind
    ((Emits.pure _ _ _).bind (Emits.pure _ _ _))))

/-- The code of a program: that of its statements, between two labels. -/
lemma exists_program (h : program? t = some st) (hpl : st.Plain) :
    ∃ b p n, Emits (generate t) .empty 0 .none (programCode b) p n ∧
      StmtCodes A st .empty 0 b p n := by
  unfold program? at h
  split at h
  · rename_i s hphr
    cases h
    obtain ⟨tag, start, cs, parts, ht, hcs, hphr⟩ := exists_parts hphr rfl
    obtain ⟨hru, hst⟩ := assembleStmt_of_assemble hphr
    obtain ⟨r, l⟩ := tag
    obtain rfl : r = .program := hru
    exact exists_programNode reading_phrase (translatesStatements_phrase A) ht hcs
      (statements_of_program hst) hpl
  · cases h

end Compiscript.Core
