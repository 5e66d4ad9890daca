import Compiscript.Proofs.Core.ChainCode

/-!
# Code for Expression Trees

The generator makes code for every expression of the core, wherever it stands
in a parse tree.
-/

namespace Compiscript.Core

open List Compiscript.Tree

open Machine Tac Gen

variable {V : Type} [DecidableEq V] {A : Arith V}

/-- The generator turns a tree into code for an expression. -/
def Translates (A : Arith V) (t : Tree) (e : Expr) : Prop :=
  ∀ (p : Temps) (n : Nat), p.Kept →
    ∃ v b p' n', Emits (generate t) p n v b p' n' ∧ Codes A e p n v b p' n'

section Nodes

variable {t c : Tree} {e : Expr} {start : Pos}

/-- A tree that has no code of its own. -/
lemma Translates.pass (hc : Translates A c e)
    (h : ∀ p n v b p' n', Emits (generate c) p n v b p' n' → Emits (generate t) p n v b p' n') :
    Translates A t e := by
  intro p n hp
  obtain ⟨v, b, p', n', hem, hcds⟩ := hc p n hp
  exact ⟨v, b, p', n', h p n v b p' n' hem, hcds⟩

/-- A tree whose value is left in a temporary. -/
lemma Translates.of_temp (h : ∀ p n, p.Kept → ∃ j b p' n',
    Emits (generate t) p n (.temp j) b p' n' ∧ Codes A e p n (.temp j) b p' n') :
    Translates A t e := fun p n hp =>
  let ⟨_, b, p', n', h⟩ := h p n hp
  ⟨_, b, p', n', h⟩

/-- A tree that is a name or a literal. -/
lemma Translates.leaf {x : String} (hx : isTempName x = false)
    (heval : ∀ store, evalIn A store e = .ok (Tac.read A store x))
    (h : ∀ p n, Emits (generate t) p n (.text x) [] p n) : Translates A t e := by
  intro p n hp
  exact ⟨.text x, [], p, n, h p n, .leaf hp hx heval⟩

lemma translates_expression (ht : t = .node ⟨.expression, none⟩ start [c])
    (ih : Translates A c e) : Translates A t e := by
  refine ih.pass fun p n v b p' n' h => ?_
  obtain ⟨k, hk, hkc⟩ : ∃ k, t.subs = [k] ∧ k.tree = c :=
    map_eq_singleton_iff.1 (by rw [subs_map_tree, ht, children_node])
  rw [generate_of_eq ht]
  change Emits (visitAll _) p n v b p' n'
  rw [visitAll, hk]
  change Emits (generate k.tree >>= pure) p n v b p' n'
  rw [bind_pure, hkc]
  exact h

lemma translates_noAssign (ht : t = .node ⟨.assignmentExpr, some .exprNoAssign⟩ start [c])
    (hc : phrase? c = some (.expr .conditionalExpr e)) (ih : Translates A c e) :
    Translates A t e := by
  refine ih.pass fun p n v b p' n' h => ?_
  obtain ⟨k, hk, hkc⟩ := kid?_eq_some (t := t) (c := c) (r := .conditionalExpr)
    (by simp [ht, isOf_of_phrase hc, Phrase.rule?])
  rw [generate_of_eq ht]
  exact .visitPart hk (by rw [hkc]; exact h)

lemma translates_noQuestion (ht : t = .node ⟨.conditionalExpr, some .ternaryExpr⟩ start [c])
    (hc : phrase? c = some (.expr .logicalOrExpr e)) (ih : Translates A c e) :
    Translates A t e := by
  refine ih.pass fun p n v b p' n' h => ?_
  obtain ⟨k, hk, hkc⟩ := kid?_eq_some (t := t) (c := c) (r := .logicalOrExpr)
    (by simp [ht, isOf_of_phrase hc, Phrase.rule?])
  have hno : t.kids .expression = [] :=
    kids_eq_nil (by simp [ht, isOf_of_phrase hc, Phrase.rule?])
  rw [generate_of_eq ht]
  change Emits (ternary t _) p n v b p' n'
  rw [ternary, hno]
  exact .visitPart hk (by rw [hkc]; exact h)

lemma translates_question {a b : Tree} {ec ea eb : Expr} {t1 t2 : Token}
    (ht : t = .node ⟨.conditionalExpr, some .ternaryExpr⟩ start [c, .leaf t1, a, .leaf t2, b])
    (hpa : ea.Plain) (hpb : eb.Plain) (hc : phrase? c = some (.expr .logicalOrExpr ec))
    (ha : phrase? a = some (.expr .expression ea)) (hb : phrase? b = some (.expr .expression eb))
    (ihc : Translates A c ec) (iha : Translates A a ea) (ihb : Translates A b eb) :
    Translates A t (.question ec ea eb) := by
  obtain ⟨kc, hkc, hc'⟩ := kid?_eq_some (t := t) (c := c) (r := .logicalOrExpr)
    (by simp [ht, isOf_of_phrase hc, Phrase.rule?])
  obtain ⟨ka, kb, hkids, ha', hb'⟩ := kids_eq_pair (t := t) (c := a) (d := b)
    (r := .expression) (by
      simp [ht, isOf_of_phrase hc, isOf_of_phrase ha, isOf_of_phrase hb, Phrase.rule?])
  intro p n hp
  obtain ⟨vc, bc, p1, n1, hemitc, hcodec⟩ := ihc p n hp
  obtain ⟨va, ba, p2, n2, hemita, hcodea⟩ := iha _ (n1 + 2) hcodec.kept_giveBack
  obtain ⟨vb, bb, p3, n3, hemitb, hcodeb⟩ := ihb _ n2 hcodea.kept_result
  refine ⟨_, _, _, _, ?_, .question hp hpa hpb hcodec hcodea hcodeb⟩
  rw [← hc'] at hemitc
  rw [← ha'] at hemita
  rw [← hb'] at hemitb
  rw [generate_of_eq ht]
  change Emits (ternary t _) _ _ _ _ _ _
  rw [ternary, hkids]
  refine (Emits.visitPart hkc hemitc).bind ?_
  refine (Emits.freshLabel _ _).silent ((Emits.freshLabel _ _).silent ?_)
  refine (Emits.emit _ _ _ _ _ _).bind ((Emits.release vc _ _).silent (hemita.bind ?_))
  refine (Emits.freshTemp _ _).silent ((Emits.move va _ _ _).bind ?_)
  refine (Emits.release va _ _).silent ((Emits.jump _ _ _).bind ((Emits.label _ _ _).bind ?_))
  refine hemitb.bind ((Emits.move vb _ _ _).bind ((Emits.release vb _ _).silent ?_))
  exact (Emits.label _ _ _).bind (Emits.pure _ _ _)

section Logical

variable {operand : Rule} {op : Op} {d : String}

lemma translates_logical_only (hgen : generate t = logical t (generate ·.tree) operand op d)
    (hkids : t.children.filter (·.isOf operand) = [c]) (ih : Translates A c e) :
    Translates A t e := by
  refine ih.pass fun p n v b p' n' h => ?_
  obtain ⟨k, hk, hkc⟩ := kids_eq_singleton hkids
  rw [hgen, logical, hk]
  change Emits (generate k.tree) p n v b p' n'
  rw [hkc]
  exact h

/-- The value of a logical operator is left in a temporary. Of its operands, those
    behind the second one have no code. -/
lemma exists_code_logical {a b : Tree} {r : List Tree} {ea eb : Expr} {jumps : V → Bool} {w0 : V}
    (hgen : generate t = logical t (generate ·.tree) operand op d)
    (hkids : t.children.filter (·.isOf operand) = a :: b :: r)
    (hvs : eb.Plain) (hop : op ≠ .label) (hsk : Skips A op jumps)
    (hd : ∀ store, Tac.read A store d = w0)
    (heval : ∀ store, evalIn A store e =
      (evalIn A store ea).bind fun x => if jumps x then .ok w0 else evalIn A store eb)
    (iha : Translates A a ea) (ihb : Translates A b eb) {p : Temps} (hp : p.Kept) (n : Nat) :
    ∃ j bl p' n', Emits (generate t) p n (.temp j) bl p' n' ∧
      Codes A e p n (.temp j) bl p' n' := by
  rw [← kids_map_tree] at hkids
  obtain ⟨ka, ks, hk, ha', hks⟩ := map_eq_cons_iff.1 hkids
  obtain ⟨kb, ks, rfl, hb', -⟩ := map_eq_cons_iff.1 hks
  obtain ⟨va, ba, p1, n1, hemita, hcodea⟩ := iha _ (n + 2) hp.get
  obtain ⟨vb, bb, p2, n2, hemitb, hcodeb⟩ := ihb _ n1 hcodea.kept_giveBack
  refine ⟨_, _, _, _, ?_, .logical hp hvs hop hsk hd heval hcodea hcodeb⟩
  rw [← ha'] at hemita
  rw [← hb'] at hemitb
  rw [hgen, logical, hk]
  refine (Emits.freshTemp _ _).silent ((Emits.freshLabel _ _).silent ?_)
  refine (Emits.freshLabel _ _).silent ((Emits.visitPart rfl hemita).bind ?_)
  refine (Emits.emit _ _ _ _ _ _).bind ((Emits.release va _ _).silent ?_)
  refine (Emits.visitPart rfl hemitb).bind ((Emits.move vb _ _ _).bind ?_)
  refine (Emits.release vb _ _).silent ((Emits.jump _ _ _).bind ((Emits.label _ _ _).bind ?_))
  exact (Emits.move _ _ _ _).bind ((Emits.label _ _ _).bind (Emits.pure _ _ _))

end Logical

variable {tok : Token} {cs : List Tree} {x : String}

lemma translates_unary {ea : Expr} (ht : t = .node ⟨.unaryExpr, none⟩ start [.leaf tok, c])
    (hc : phrase? c = some (.expr .unaryExpr ea)) (hsig : signed? tok ea = some e)
    (ih : Translates A c ea) : Translates A t e := by
  obtain ⟨k, hk, hkc⟩ := kid?_eq_some (t := t) (c := c) (r := .unaryExpr)
    (by simp [ht, isOf_of_phrase hc, Phrase.rule?])
  have htx : t.childText? 0 = some tok.text := by
    rw [ht, childText?, children_node]
    simp [Tree.text]
  intro p n hp
  obtain ⟨v, b, p1, n1, hem, hcds⟩ := ih p n hp
  rw [← hkc] at hem
  have hgen : generate t = unary t (generate ·.tree) := generate_of_eq ht
  unfold signed? at hsig
  split at hsig
  iterate 2
    · rename_i hsign
      cases hsig
      first
      | refine ⟨_, _, _, _, ?_, hcds.unary hp (i := .of .neg v.operand .none (.text _)) rfl
          step_neg fun store => evalIn_minus store ea⟩
      | refine ⟨_, _, _, _, ?_, hcds.unary hp (i := .of .not v.operand .none (.text _)) rfl
          step_not fun store => evalIn_bang store ea⟩
      rw [hgen, unary, hk]
      refine hem.bind ((Emits.freshTemp _ _).silent ?_)
      rw [htx, hsign]
      exact (Emits.emit _ _ _ _ _ _).bind ((Emits.release v _ _).silent (Emits.pure _ _ _))
  · cases hsig

lemma translates_noSign (ht : t = .node ⟨.unaryExpr, none⟩ start [c])
    (hc : phrase? c = some (.expr .primaryExpr e)) (ih : Translates A c e) : Translates A t e := by
  refine ih.pass fun p n v b p' n' h => ?_
  obtain ⟨k, hk, hkc⟩ := kid?_eq_some (t := t) (c := c) (r := .primaryExpr)
    (by simp [ht, isOf_of_phrase hc, Phrase.rule?])
  have hno : t.kid? .unaryExpr = none :=
    kid?_eq_none (by simp [ht, isOf_of_phrase hc, Phrase.rule?])
  rw [generate_of_eq ht]
  change Emits (unary t _) p n v b p' n'
  rw [unary, hno]
  exact .visitPart hk (by rw [hkc]; exact h)

lemma translates_primary (ht : t = .node ⟨.primaryExpr, none⟩ start cs)
    (hc : ((cs.filter (·.isOf .literalExpr)).head?.or
      ((cs.filter (·.isOf .leftHandSide)).head?.or (cs.filter (·.isOf .expression)).head?)) =
        some c) (ih : Translates A c e) : Translates A t e := by
  refine ih.pass fun p n v b p' n' h => ?_
  have hmap : ((t.kid? .literalExpr).or ((t.kid? .leftHandSide).or (t.kid? .expression))).map
      Tree.Sub.tree = some c := by
    rw [Option.map_or, Option.map_or, kid?_map_tree, kid?_map_tree, kid?_map_tree,
      ht, children_node]
    exact hc
  obtain ⟨k, hk, hkc⟩ := Option.map_eq_some_iff.1 hmap
  rw [generate_of_eq ht]
  change Emits (primary t _) p n v b p' n'
  rw [primary, hk]
  change Emits (generate k.tree) p n v b p' n'
  rw [hkc]
  exact h

lemma tokenText?_of_leaf {tag : Tag} {k : Kind}
    (ht : t = .node tag start (.leaf tok :: cs)) (hk : tok.kind = k) :
    t.tokenText? k = some tok.text := by
  rw [ht, tokenText?, tokenTexts, children_node,
    filter_cons_of_pos (by simp [isToken, Tree.token?, hk]), map_cons,
    head?_cons, Tree.text]

lemma translates_literal (ht : t = .node ⟨.literalExpr, none⟩ start [.leaf tok])
    (he : literalOf? tok = some e) : Translates A t e := by
  have hgen : generate t = Gen.literal t := generate_of_eq ht
  have htx : (t.tokenText? .literal).getD t.text = tok.text := by
    by_cases hkd : tok.kind = .literal
    · rw [tokenText?_of_leaf ht hkd]
      rfl
    · simp [ht, tokenText?, tokenTexts, isToken, Tree.token?, Tree.text, textOfAll, hkd]
  unfold literalOf? at he
  split at he
  · obtain ⟨n, hn, rfl⟩ := Option.map_eq_some_iff.1 he
    refine .leaf (isTempName_of_decimal? hn) (fun store => ?_) fun p n => ?_
    · rw [read_of_literal (literal?_of_decimal? hn)]
      rfl
    · rw [hgen, Gen.literal, htx]
      exact .pure _ p n
  · have hbool : ∀ b : Bool, tok.text = (if b then "true" else "false") →
        Translates A t (.bool b) := by
      intro b hb
      refine .leaf (x := tok.text) ?_ (fun store => ?_) fun p n => ?_
      · rw [hb]
        cases b <;> decide
      · rw [hb]
        cases b <;> rfl
      · rw [hgen, Gen.literal, htx]
        exact .pure _ p n
    split at he
    · rename_i htrue
      injection he with he
      exact he ▸ hbool true htrue
    · rename_i hfalse
      injection he with he
      exact he ▸ hbool false hfalse
    · cases he

/-- A chain without links is its first part. -/
lemma emits_chain (ht : t = .node ⟨.leftHandSide, none⟩ start [c])
    (hc : phrase? c = some (.expr .primaryAtom e)) {p p' : Temps} {n n' : Nat} {v : Value}
    {b : List Instr} (h : Emits (generate c) p n v b p' n') : Emits (generate t) p n v b p' n' := by
  obtain ⟨k, hk, hkc⟩ := kid?_eq_some (t := t) (c := c) (r := .primaryAtom)
    (by simp [ht, isOf_of_phrase hc, Phrase.rule?])
  have hno : t.kids .suffixOp = [] :=
    kids_eq_nil (by simp [ht, isOf_of_phrase hc, Phrase.rule?])
  rw [generate_of_eq ht]
  change Emits (Gen.chain t _) p n v b p' n'
  rw [Gen.chain, hno, ← append_nil b]
  exact (Emits.visitPart hk (by rw [hkc]; exact h)).bind (Emits.pure v _ _)

lemma translates_chain (ht : t = .node ⟨.leftHandSide, none⟩ start [c])
    (hc : phrase? c = some (.expr .primaryAtom e)) (ih : Translates A c e) : Translates A t e :=
  ih.pass fun _ _ _ _ _ _ h => emits_chain ht hc h

lemma kind_of_name (hx : nameOf? tok = some x) :
    tok.kind = .identifier ∧ tok.text = x ∧ Tac.IsVariable x := by
  unfold nameOf? at hx
  split at hx
  · rename_i hnm
    injection hx with hx
    exact ⟨hnm.1, hx, hx ▸ hnm.2⟩
  · cases hx

/-- A name outside all functions is read as itself. -/
lemma emits_name (ht : t = .node ⟨.primaryAtom, some .identifierExpr⟩ start [.leaf tok])
    (hx : nameOf? tok = some x) (p : Temps) (n : Nat) :
    Emits (generate t) p n (.text x) [] p n := by
  obtain ⟨hkd, rfl, -⟩ := kind_of_name hx
  rw [generate_of_eq ht]
  change Emits (identifier t) p n _ [] p n
  refine (Emits.tokenText (tokenText?_of_leaf ht hkd) p n).silent ?_
  refine Emits.get fun g hfun _ => ?_
  rw [hfun]
  exact .pure _ p n

lemma translates_name (ht : t = .node ⟨.primaryAtom, some .identifierExpr⟩ start [.leaf tok])
    (hx : nameOf? tok = some x) (hpl : isTempName x = false) : Translates A t (.var x) := by
  refine .leaf hpl (fun store => ?_) (emits_name ht hx)
  rw [read_of_isVariable (kind_of_name hx).2.2]
  rfl

section Links

variable {r operand : Rule}

variable {parts : List Phrase} {links : List (Binary × Expr)} {cs : List Tree} {opOf : String → Op}

/-- The operands and operators of a chain, as the generator finds them among the children. -/
lemma exists_of_links (hop : ∀ text op, operator? r text = some op → opOf text = op.op)
    (h : links? r operand parts = some links)
    (hcs : Forall₂ (fun c part => phrase? c = some part) cs parts) (c : Tree) :
    Forall₂ (fun c l => phrase? c = some (.expr operand l.2)) (cs.filter (·.isOf operand))
        links ∧ (operators (c :: cs)).map opOf = links.map (·.1.op) := by
  fun_induction links? r operand parts generalizing links cs c with
  | case1 =>
    cases h
    cases hcs
    exact ⟨.nil, rfl⟩
  | case2 tok e rest ih =>
    obtain ⟨op, hop', h⟩ := Option.bind_eq_some_iff.1 h
    obtain ⟨links, hlinks, rfl⟩ := Option.map_eq_some_iff.1 h
    rcases hcs with _ | @⟨_, _, _, _, htok, _ | @⟨d, _, cs, _, hd, hcs⟩⟩
    rw [eq_leaf_of_phrase htok]
    obtain ⟨hops, hope⟩ := ih hlinks hcs d
    constructor
    · rw [filter_cons_of_neg (by simp),
        filter_cons_of_pos (by simp [isOf_of_phrase hd, Phrase.rule?])]
      exact .cons hd hops
    · rw [operators, map_cons, map_cons, hope, Tree.text, hop _ _ hop']
  | case3 => cases h
  | case4 => cases h

lemma exists_codesAll {ks : List t.Sub} {es : List Expr}
    (h : Forall₂ (fun k e => e.Plain → Translates A k.tree e) ks es)
    (hvs : ∀ e ∈ es, e.Plain) {p : Temps} (hp : p.Kept) (n : Nat) :
    ∃ vs b p' n', Emits (visitEach (fun k : t.Sub => generate k.tree) ks) p n vs b p' n' ∧
      CodesAll A es p n vs b p' n' ∧ vs.length = es.length := by
  induction h generalizing p n with
  | nil => exact ⟨[], [], p, n, .pure [] p n, .nil hp n, rfl⟩
  | @cons k e ks es hk _ ih =>
    rw [forall_mem_cons] at hvs
    obtain ⟨v, b, p1, n1, hem, hcds⟩ := hk hvs.1 p n hp
    obtain ⟨vs, bs, p2, n2, hemits', hcodes', hlen⟩ := ih hvs.2 hcds.kept n1
    refine ⟨v :: vs, b ++ bs, p2, n2, ?_, .cons hp hvs.2 hcds hcodes', by simp [hlen]⟩
    rw [visitEach, mapM_cons]
    refine hem.bind ?_
    rw [← append_nil bs]
    exact hemits'.bind (Emits.pure _ _ _)

lemma vars_chain (e : Expr) (links : List (Binary × Expr)) :
    (e.chain links).vars = e.vars ++ links.flatMap (·.2.vars) := by
  induction links generalizing e with
  | nil => exact (append_nil _).symm
  | cons l links ih =>
    change ((Expr.binary l.1 e l.2).chain links).vars = _
    rw [ih, Expr.vars, flatMap_cons, append_assoc]

lemma translates_links (hgen : generate t = binary t (generate ·.tree) operand opOf)
    (ht : t.children = c :: cs) (hop : ∀ text op, operator? r text = some op → opOf text = op.op)
    (hc : phrase? c = some (.expr operand e))
    (hcs : Forall₂ (fun c part => phrase? c = some part) cs parts)
    (hlinks : links? r operand parts = some links) (hvs : (e.chain links).Plain)
    (ih : ∀ c' ∈ c :: cs, ∀ e', phrase? c' = some (.expr operand e') → e'.Plain →
      Translates A c' e') : Translates A t (e.chain links) := by
  obtain ⟨hops, hope⟩ := exists_of_links hop hlinks hcs c
  rw [Expr.Plain, vars_chain, forall_mem_append] at hvs
  have hpl : ∀ e' ∈ e :: links.map Prod.snd, e'.Plain := by
    intro e' he' x hx
    rcases mem_cons.1 he' with rfl | he'
    · exact hvs.1 x hx
    · obtain ⟨l, hl, rfl⟩ := mem_map.1 he'
      exact hvs.2 x (mem_flatMap.2 ⟨l, hl, hx⟩)
  have hkids : (t.kids operand).map Tree.Sub.tree = c :: cs.filter (·.isOf operand) := by
    rw [kids_map_tree, ht,
      filter_cons_of_pos (by simp [isOf_of_phrase hc, Phrase.rule?])]
  have htrees : Forall₂ (fun k e => e.Plain → Translates A k.tree e) (t.kids operand)
      (e :: links.map Prod.snd) := by
    rw [← forall₂_map_left_iff (R := fun c e => e.Plain → Translates A c e)
      (f := Tree.Sub.tree), hkids]
    refine .cons (ih c (.head _) e hc) (forall₂_map_right_iff.2 ?_)
    have hmem : ∀ c' ∈ cs.filter (·.isOf operand), c' ∈ c :: cs :=
      fun c' hc' => .tail _ (mem_of_mem_filter hc')
    refine ((forall₂_and_left _ _).2 ⟨hmem, hops⟩).imp ?_
    rintro c' l ⟨hc', hphr⟩
    exact ih c' hc' l.2 hphr
  intro p n hp
  obtain ⟨vs, bs, p1, n1, hem, hcds, hlen⟩ := exists_codesAll htrees hpl hp n
  obtain ⟨acc, vs, rfl⟩ : ∃ acc vs', vs = acc :: vs' :=
    exists_cons_of_length_eq_add_one (by simpa using hlen)
  have hlen' : vs.length = links.length := by simpa using hlen
  have hsnd : ((links.map Prod.fst).zip vs).map Prod.snd = vs :=
    map_snd_zip (by rw [length_map, hlen'])
  obtain ⟨v, b, p', hemits', happ⟩ :=
    @exists_applies V _ A p1 n1 acc ((links.map Prod.fst).zip vs) hcds.kept
      (by rw [hsnd]; exact hcds.held) (by rw [hsnd]; exact hcds.apart)
  refine ⟨v, bs ++ b, p', n1, ?_, .chain hcds hlen' happ⟩
  rw [hgen, binary]
  refine hem.bind ?_
  cases vs with
  | nil =>
    -- A chain without operators has nothing to apply.
    rw [eq_nil_of_length_eq_zero hlen'.symm] at hemits'
    exact hemits'
  | cons v1 vs =>
    change Emits (applyOps acc (((operators t.children).map opOf).zip (v1 :: vs))) _ _ _ _ _ _
    have hzip : (links.map (·.1.op)).zip (v1 :: vs) =
        ((links.map Prod.fst).zip (v1 :: vs)).map fun l => (l.1.op, l.2) := by
      have hmap : links.map (·.1.op) = (links.map Prod.fst).map Binary.op := by
        rw [map_map]
        rfl
      rw [hmap, zip_map_left]
      rfl
    rw [ht, hope, hzip]
    exact hemits'

end Links

end Nodes

variable {r : Rule} {e : Expr}

lemma arithmeticOp_of_operator (hr : r = .additiveExpr ∨ r = .multiplicativeExpr)
    (text : String) (op : Binary) (h : operator? r text = some op) : arithmeticOp text = op.op := by
  rcases hr with rfl | rfl <;> unfold operator? at h <;> split at h <;> simp_all <;> subst h <;> rfl

lemma comparisonOp_of_operator (hr : r = .equalityExpr ∨ r = .relationalExpr)
    (text : String) (op : Binary) (h : operator? r text = some op) : comparisonOp text = op.op := by
  rcases hr with rfl | rfl <;> unfold operator? at h <;> split at h <;> simp_all <;> subst h <;> rfl

lemma vars_of_signed {tok : Token} {e' : Expr} (h : signed? tok e = some e') :
    e'.vars = e.vars := by
  unfold signed? at h
  split at h
  · injection h with h
    rw [← h]
    rfl
  · injection h with h
    rw [← h]
    rfl
  · cases h

/-- The parts of a node have been translated, those that are expressions. -/
def PartsTranslate (A : Arith V) (cs : List Tree) : Prop :=
  ∀ c ∈ cs, ∀ r e, phrase? c = some (.expr r e) → e.Plain → Translates A c e

lemma translates_node {tag : Tag} {start : Pos} {cs : List Tree} {parts : List Phrase}
    (hcs : Forall₂ (fun c part => phrase? c = some part) cs parts)
    (h : assembleExpr tag parts = some e) (hvs : e.Plain) (ih : PartsTranslate A cs) :
    Translates A (.node tag start cs) e := by
  unfold assembleExpr at h
  split at h
  · -- `expression`
    cases h
    rcases hcs with _ | ⟨hc, _ | _⟩
    exact translates_expression rfl (ih _ (.head _) _ _ hc hvs)
  · -- `assignmentExpr`
    cases h
    rcases hcs with _ | ⟨hc, _ | _⟩
    exact translates_noAssign rfl hc (ih _ (.head _) _ _ hc hvs)
  · -- `conditionalExpr`, without a question and with one
    cases h
    rcases hcs with _ | ⟨hc, _ | _⟩
    exact translates_noQuestion rfl hc (ih _ (.head _) _ _ hc hvs)
  · cases h
    rcases hcs with _ | ⟨hc, _ | ⟨h1, _ | ⟨ha, _ | ⟨h2, _ | ⟨hb, _ | _⟩⟩⟩⟩⟩
    cases eq_leaf_of_phrase h1
    cases eq_leaf_of_phrase h2
    rw [Expr.Plain, Expr.vars, forall_mem_append] at hvs
    have hab := forall_mem_append.1 hvs.2
    exact translates_question rfl hab.1 hab.2 hc ha hb (ih _ (by simp) _ _ hc hvs.1)
      (ih _ (by simp) _ _ ha hab.1) (ih _ (by simp) _ _ hb hab.2)
  -- `logicalOrExpr` and `logicalAndExpr`, with one operand and with two
  iterate 2
    · cases h
      rcases hcs with _ | ⟨hc, _ | _⟩
      exact translates_logical_only (generate_of_eq rfl)
        (by simp [isOf_of_phrase hc, Phrase.rule?]) (ih _ (.head _) _ _ hc hvs)
    · cases h
      rcases hcs with _ | ⟨ha, _ | ⟨h1, _ | ⟨hb, _ | _⟩⟩⟩
      cases eq_leaf_of_phrase h1
      have hab := forall_mem_append.1 hvs
      refine .of_temp fun p n hp => exists_code_logical (r := []) (generate_of_eq rfl)
        (by simp [isOf_of_phrase ha, isOf_of_phrase hb, Phrase.rule?]) hab.2 (by decide)
        (by first | exact skips_ifnz A | exact skips_ifz A) (fun store => rfl)
        (by first | exact fun s => evalIn_orElse s _ _ | exact fun s => evalIn_andAlso s _ _)
        (ih _ (by simp) _ _ ha hab.1) (ih _ (by simp) _ _ hb hab.2) hp n
  -- the chains: `equalityExpr`, `relationalExpr`, `additiveExpr`, `multiplicativeExpr`
  iterate 4
    · obtain ⟨links, hlinks, rfl⟩ := Option.map_eq_some_iff.1 h
      rcases hcs with _ | ⟨hc, hcs⟩
      refine translates_links (generate_of_eq rfl) rfl ?_ hc hcs hlinks hvs
        fun c' hc' e' => ih c' hc' _ e'
      first
      | exact comparisonOp_of_operator (by simp)
      | exact arithmeticOp_of_operator (by simp)
  · -- `unaryExpr`, with a sign and without one
    rcases hcs with _ | ⟨h1, _ | ⟨hc, _ | _⟩⟩
    cases eq_leaf_of_phrase h1
    rw [Expr.Plain, vars_of_signed h] at hvs
    exact translates_unary rfl hc h (ih _ (by simp) _ _ hc hvs)
  · cases h
    rcases hcs with _ | ⟨hc, _ | _⟩
    exact translates_noSign rfl hc (ih _ (.head _) _ _ hc hvs)
  -- `primaryExpr`: a literal, a name, an expression in parentheses
  iterate 2
    · cases h
      rcases hcs with _ | ⟨hc, _ | _⟩
      exact translates_primary rfl (by simp [isOf_of_phrase hc, Phrase.rule?])
        (ih _ (.head _) _ _ hc hvs)
  · cases h
    rcases hcs with _ | ⟨h1, _ | ⟨hc, _ | ⟨h2, _ | _⟩⟩⟩
    cases eq_leaf_of_phrase h1
    cases eq_leaf_of_phrase h2
    exact translates_primary rfl (by simp [isOf_of_phrase hc, Phrase.rule?])
      (ih _ (by simp) _ _ hc hvs)
  · -- `literalExpr`
    rcases hcs with _ | ⟨hc, _ | _⟩
    cases eq_leaf_of_phrase hc
    exact translates_literal rfl h
  · -- `leftHandSide`
    cases h
    rcases hcs with _ | ⟨hc, _ | _⟩
    exact translates_chain rfl hc (ih _ (.head _) _ _ hc hvs)
  · -- `primaryAtom`
    obtain ⟨x, hx, rfl⟩ := Option.map_eq_some_iff.1 h
    rcases hcs with _ | ⟨hc, _ | _⟩
    cases eq_leaf_of_phrase hc
    exact translates_name rfl hx (hvs x (mem_singleton.2 rfl))
  · cases h

/-- A tree is translated to code for the expression it comes to. -/
lemma translates_of_phrase (A : Arith V) (t : Tree)
    (h : phrase? t = some (.expr r e)) (hvs : e.Plain) : Translates A t e := by
  induction hsz : sizeOf t using Nat.strong_induction_on generalizing t r e with
  | _ size ih =>
    obtain ⟨tag, start, cs, parts, rfl, hcs, h⟩ := exists_parts h rfl
    refine translates_node hcs (assembleExpr_of_assemble h) hvs ?_
    intro c hc r e hphr hpl
    refine ih (sizeOf c) ?_ c hphr hpl rfl
    rw [← hsz]
    exact sizeOf_child_lt hc

end Compiscript.Core
