import Compiscript.Proofs.Check.Follows

/-!
# Statements Follow their Outlines

Every statement but a `switch` does with names what its outline says, if its parts do.

Of a statement the grammar fixes which parts it has and how many, and the outline only
mentions some of them. So each proof has two halves: which children count for the
outline, by a look at what the rule mentions, and what the check does with these.
-/

namespace Compiscript

open List hiding get modify
open Compiscript.Tree

/-- Rules whose trees use names. -/
def Rule.hasUses (r : Rule) : Bool := r.isInExpression || r == .initializer

/-- Rules for statements and what they are put into, without a `switch`. -/
def Rule.isStatement : Rule → Bool
  | .program | .statement | .block | .variableDeclaration | .constantDeclaration | .assignment
  | .expressionStatement | .printStatement | .ifStatement | .whileStatement | .doWhileStatement
  | .forStatement | .foreachStatement | .breakStatement | .continueStatement | .returnStatement
  | .tryCatchStatement | .functionDeclaration | .classDeclaration => true
  | _ => false

/-- Rules whose trees have an outline. -/
def Rule.hasOutline : Rule → Bool
  | .switchStatement | .switchCase | .defaultCase => true
  | r => r.isStatement

namespace Tree

variable {P : Token → Prop} {r : Rule} {t c : Tree}

lemma outline_of_isOf (hc : c.isOf r = true) (hr : r.hasOutline = false) : c.outline = [] := by
  obtain ⟨l, p, cs, rfl⟩ := exists_of_isOf hc
  cases r <;> first | rfl | cases hr

lemma uses_of_derives (hc : Derives P r c) (hr : r.hasUses = false) :
    c.uses = [] ∧ c.bare? = none := by
  have hlab : ∀ r ∈ Rule.all, r.hasUses = false → ∀ e ∈ production r, e.label = none := by decide
  obtain ⟨e, p, cs, he, -, rfl⟩ := hc
  rw [hlab r (Rule.mem_all r) hr e he]
  constructor
  · cases r <;> first | rfl | cases hr
  · rcases cs with _ | ⟨c, _ | ⟨d, cs⟩⟩ <;> cases r <;> first | rfl | cases hr

variable {β : Type} {q : Rule} {f : Tree → List β}

lemma flatMap_eq_filter {cs : List Tree} (hf : ∀ c ∈ cs, c.isOf q = false → f c = []) :
    cs.flatMap f = (cs.filter (·.isOf q)).flatMap f := by
  induction cs with
  | nil => rfl
  | cons c cs ih =>
    rw [forall_mem_cons] at hf
    cases hc : c.isOf q with
    | false =>
      rw [filter_cons_of_neg (by simp [hc]), flatMap_cons, hf.1 hc, ih hf.2,
        nil_append]
    | true => rw [filter_cons_of_pos hc, flatMap_cons, flatMap_cons, ih hf.2]

lemma flatMap_children (hf : ∀ c ∈ t.children, c.isOf q = false → f c = []) :
    t.children.flatMap f = (t.kids q).flatMap fun k => f k.tree := by
  rw [flatMap_eq_filter hf, ← kids_map_tree, flatMap_map]

lemma exists_sub {i : Nat} (h : t.children[i]? = some c) :
    ∃ k, t.subs[i]? = some k ∧ k.tree = c := by
  rwa [← subs_map_tree, getElem?_map, Option.map_eq_some_iff] at h

/-- Of the parts that are mentioned, only those of one rule have an outline. -/
lemma outlineAll_children (h : Derives P r t)
    (hol : r.MentionsOnly fun q' => q' = q ∨ q'.hasOutline = false) :
    outlineAll t.children = (t.kids q).flatMap (·.tree.outline) := by
  rw [outlineAll_eq]
  refine flatMap_children fun c hc hno => ?_
  rcases h.leaf_or_mentioned hc with ⟨tok, rfl⟩ | ⟨q', hof, e, he, hment⟩
  · rfl
  · rcases hol e he q' (Rule.mem_all q') hment with rfl | hq'
    · rw [hof] at hno
      cases hno
    · exact outline_of_isOf hof hq'

/-- Of the parts that are mentioned, only expressions use names. -/
lemma mem_usesOf_children (h : Derives P r t)
    (hol : r.MentionsOnly fun q => q = .expression ∨ q.hasUses = false) {asked : Bool} {u : String}
    (hu : u ∈ usesOf asked t.children) : ∃ e ∈ t.kids .expression, u ∈ usesOf asked [e.tree] := by
  obtain ⟨c, hc, hu⟩ := mem_usesOf.1 hu
  rcases h.leaf_or_mentioned hc with ⟨tok, rfl⟩ | ⟨q, hof, e, he, hment⟩
  · rcases hu with hu | ⟨-, hu⟩ <;> cases hu
  · rcases hol e he q (Rule.mem_all q) hment with rfl | hq
    · obtain ⟨k, hk, rfl⟩ := Check.exists_kid hc hof
      exact ⟨k, hk, mem_usesOf.2 ⟨k.tree, .head _, hu⟩⟩
    · obtain ⟨huses, hbare⟩ := uses_of_derives (h.of_isOf (.of_mem hc) hof) hq
      rw [huses, hbare] at hu
      rcases hu with hu | ⟨-, hu⟩ <;> cases hu

end Tree

namespace Check

variable {α : Type} {P : Token → Prop} {t : Tree} {visit : t.Sub → Check Ty}

/-- The visits of the parts of a node follow their outlines, and those of expressions
    find the names that are asked for. -/
structure Tracks (t : Tree) (visit : t.Sub → Check Ty) : Prop where
  follows : ∀ k : t.Sub, k.tree.Within t → ∀ r : Rule, r.isStatement = true →
    k.tree.isOf r = true → Follows k.tree.outline (visit k)
  token : ∀ k : t.Sub, ∀ tok, k.tree = .leaf tok → OnlyComplains (visit k)
  complains : ∀ k : t.Sub, k.tree.Within t → k.tree.isOf .expression = true →
    OnlyComplains (visit k)
  declared : ∀ k : t.Sub, k.tree.Within t → k.tree.isOf .expression = true → ∀ s asked,
    Visited visit s asked k → ∀ u ∈ usesOf asked [k.tree], s.scopes.resolve? u ≠ none

/-- An expression in a node. -/
def IsExpression (e : t.Sub) : Prop := e.tree.Within t ∧ e.tree.isOf .expression = true

variable {e : t.Sub}

lemma isExpression_of_mem (he : e ∈ t.kids .expression) : IsExpression e :=
  ⟨Within.of_kids he, (of_mem_kids he).2⟩

lemma isExpression_of_kid? (he : t.kid? .expression = some e) : IsExpression e :=
  isExpression_of_mem (mem_kids_of_kid? he)

namespace Tracks

variable (hv : Tracks t visit)

include hv

variable {x : Check α} {asked : Bool} {part : Option t.Sub} {r : Rule} {s : Checker} {β : Type}
  {os : List Outline} {f : Tree}

lemma follows_uses {es : List t.Sub} {us : List String}
    (hx : OnlyComplains x) (hes : ∀ e ∈ es, IsExpression e)
    (hvd : ∀ s a, Silent x s a → ∀ e ∈ es, Visited visit s asked e)
    (hus : ∀ u ∈ us, ∃ e ∈ es, u ∈ usesOf asked [e.tree]) : Follows (us.map .use) x := by
  refine .of_uses hx fun s a hs u hu => ?_
  obtain ⟨e, he, hue⟩ := hus u hu
  exact hv.declared e (hes e he).1 (hes e he).2 s asked (hvd s a hs e he) u hue

lemma complains_part (hp : ∀ e, part = some e → IsExpression e) :
    OnlyComplains (visitPart visit part) := by
  cases part with
  | none => exact onlyComplains.throw _
  | some e =>
    rw [visitPart, need, pure_bind]
    exact hv.complains e (hp e rfl).1 (hp e rfl).2

lemma complains_kid : OnlyComplains (visitPart visit (t.kid? .expression)) :=
  hv.complains_part fun _ => isExpression_of_kid?

lemma follows_children (h : Derives P r t)
    (hol : r.MentionsOnly fun q => q = .expression ∨ q.hasUses = false) (hx : OnlyComplains x)
    (hvd : ∀ s a, Silent x s a → ∀ e ∈ t.kids .expression, Visited visit s asked e) :
    Follows ((usesOf asked t.children).map .use) x :=
  hv.follows_uses hx (fun _ => isExpression_of_mem) hvd fun _ =>
    mem_usesOf_children h hol

omit hv in
lemma visited_kid (h : Derives P r t)
    (hone : ∀ e ∈ production r, Item.mostIn .expression e.body ≤ 1) {type : Ty}
    (hs : Silent (visitPart visit (t.kid? .expression)) s type)
    (hasked : asked = true → type ≠ .unknown) :
    ∀ e ∈ t.kids .expression, Visited visit s asked e := by
  obtain ⟨e, he, hs⟩ := hs.of_visitPart
  rw [h.kids_of_kid? hone he, forall_mem_singleton]
  exact ⟨type, hs, hasked⟩

lemma follows_kid {q : Rule} (h : Derives P r t) (hq : q.isStatement = true)
    (hone : ∀ e ∈ production r, Item.mostIn q e.body ≤ 1) :
    Follows ((t.kids q).flatMap (·.tree.outline)) (visitPart visit (t.kid? q)) := by
  intro s type s' hrun
  obtain ⟨k, hk, hrun⟩ := hrun.of_need
  rw [h.kids_of_kid? hone hk, flatMap_singleton]
  exact hv.follows k (.of_kid? hk) q hq
    (isOf_of_kid? hk) s type s' hrun

/-! ### Statements with expressions and blocks -/

lemma follows_evaluate (h : Derives P r t)
    (hone : ∀ e ∈ production r, Item.mostIn .expression e.body ≤ 1)
    (hol : r.MentionsOnly fun q => q = .expression ∨ q.hasUses = false) :
    Follows ((usesOf false t.children).map .use) (evaluate t visit) := by
  refine hv.follows_children h hol
    (.map hv.complains_kid) fun s a hs => ?_
  obtain ⟨type, hs, -⟩ := hs.of_bind hv.complains_kid fun _ => .pure _
  exact visited_kid h hone hs nofun

lemma visited_of_condition {st : Conditional} (hp : ∀ e, part = some e → IsExpression e) {u : Unit}
    (hs : Silent (condition t visit st part) s u) : Silent (visitPart visit part) s .boolean := by
  unfold condition at hs
  obtain ⟨type, hvis, hs⟩ := hs.of_bind (hv.complains_part hp) fun _ =>
    .require _ _ rfl
  rw [← bind_pure (require _ _ _)] at hs
  obtain ⟨hty, -⟩ := hs.of_require rfl fun _ => .pure _
  rwa [of_decide_eq_true hty] at hvis

lemma complains_condition (st : Conditional)
    (hp : ∀ e, part = some e → IsExpression e) : OnlyComplains (condition t visit st part) :=
  .bind (hv.complains_part hp) fun _ => .require _ _ rfl

lemma follows_condition (st : Conditional) (h : Derives P r t)
    (hone : ∀ e ∈ production r, Item.mostIn .expression e.body ≤ 1)
    (hol : r.MentionsOnly fun q => q = .expression ∨ q.hasUses = false) :
    Follows ((usesOf true t.children).map .use) (condition t visit st (t.kid? .expression)) := by
  refine hv.follows_children h hol (hv.complains_condition st fun _ => isExpression_of_kid?)
    fun s a hs => ?_
  exact visited_kid h hone (hv.visited_of_condition (fun _ => isExpression_of_kid?) hs) nofun

lemma follows_loopBody (h : Derives P r t)
    (hone : ∀ e ∈ production r, Item.mostIn .block e.body ≤ 1)
    (hol : r.MentionsOnly fun q => q = .block ∨ q.hasOutline = false) :
    Follows (outlineAll t.children) (loopBody t visit) := by
  rw [outlineAll_children h hol]
  exact .loop (hv.follows_kid h rfl hone)

lemma follows_while (h : Derives P .whileStatement t) :
    Follows t.outline (whileStatement t visit) := by
  obtain ⟨_, _, _, -, -, rfl⟩ := id h
  exact (hv.follows_condition .while h (by decide) (by decide)).bind fun _ =>
    (hv.follows_loopBody h (by decide) (by decide)).andReturn _

lemma follows_doWhile (h : Derives P .doWhileStatement t) :
    Follows t.outline (doWhileStatement t visit) := by
  obtain ⟨_, _, _, -, -, rfl⟩ := id h
  exact (hv.follows_loopBody h (by decide) (by decide)).bind fun _ =>
    (hv.follows_condition .doWhile h (by decide) (by decide)).andReturn _

lemma follows_if (h : Derives P .ifStatement t) : Follows t.outline (ifStatement t visit) := by
  have hblk : ∀ k ∈ t.kids .block, Follows k.tree.outline (visit k) := fun k hk =>
    hv.follows k (.of_kids hk) .block rfl (of_mem_kids hk).2
  have hout : t.outline = (usesOf true t.children).map .use ++ outlineAll t.children := by
    obtain ⟨_, _, _, -, -, rfl⟩ := id h
    rfl
  rw [hout, outlineAll_children (q := .block) h (by decide)]
  refine (hv.follows_condition .if h (by decide) (by decide)).bind fun _ => ?_
  obtain ⟨_, _, e, _, a, bs, hchs, he, ha, hbs⟩ := Gen.children_ifStatement h
  have heb := isOf_eq_false he (by decide : Rule.expression ≠ .block)
  unfold kidAt?
  rcases hbs with rfl | ⟨l, b, rfl, hb⟩
  · obtain ⟨ka, hkd, -⟩ := kids_eq_singleton (t := t) (r := .block) (c := a)
      (by simp [hchs, ha, heb])
    rw [hkd] at hblk ⊢
    rw [forall_mem_singleton] at hblk
    rw [flatMap_singleton]
    exact hblk.andReturn _
  · obtain ⟨ka, kb, hkd, -, -⟩ := kids_eq_pair (t := t) (r := .block) (c := a) (d := b)
      (by simp [hchs, ha, hb, heb])
    rw [hkd] at hblk ⊢
    rw [forall_mem_cons, forall_mem_singleton] at hblk
    rw [flatMap_cons, flatMap_singleton]
    exact hblk.1.bind fun _ => hblk.2.andReturn _

/-! ### Lists of statements -/

lemma follows_statements (dead : Bool) {ks : List t.Sub} (hks : ∀ k ∈ ks, k ∈ t.kids .statement) :
    Follows (ks.flatMap (·.tree.outline)) (statements t visit dead ks) := by
  induction ks generalizing dead with
  | nil => exact .pure _
  | cons k ks ih =>
    rw [forall_mem_cons] at hks
    rw [statements, flatMap_cons]
    refine .after (.require _ _ rfl) fun _ => ?_
    exact (hv.follows k (.of_kids hks.1) .statement rfl
      (of_mem_kids hks.1).2).bind fun _ => ih _ hks.2

lemma follows_block (h : Derives P .block t) : Follows t.outline (block t visit) := by
  have hout : t.outline = [.scope (outlineAll t.children)] := by
    obtain ⟨_, _, _, -, -, rfl⟩ := id h
    rfl
  rw [hout, outlineAll_children (q := .statement) h (by decide)]
  have hsc := (Follows.scope (hv.follows_statements false fun _ hk => hk)).andReturn
    fun _ => Ty.unknown
  simp only [bind_assoc] at hsc
  exact hsc

lemma follows_program (h : Derives P .program t) : Follows t.outline (program t visit) := by
  have hloop : ∀ ks : List t.Sub, (∀ k ∈ ks, k ∈ t.kids .statement) →
      Follows (ks.flatMap (·.tree.outline)) (do
        for k in ks do
          let _ ← visit k
        return Ty.unknown) := by
    intro ks hks
    induction ks with
    | nil => exact .pure _
    | cons k ks ih =>
      rw [forall_mem_cons] at hks
      have hrs := ih hks.2
      simp only [forIn_cons, bind_assoc, pure_bind] at hrs ⊢
      exact (hv.follows k (.of_kids hks.1) .statement rfl
        (of_mem_kids hks.1).2).bind fun _ => hrs
  have hout : t.outline = outlineAll t.children := by
    obtain ⟨_, _, _, -, -, rfl⟩ := id h
    rfl
  rw [hout, outlineAll_children (q := .statement) h (by decide)]
  exact hloop _ fun _ hk => hk

/-- A node whose children are visited in order. -/
lemma follows_visitAll (hchs : ∀ c ∈ t.children,
      (∃ tok, c = .leaf tok) ∨ ∃ r : Rule, r.isStatement = true ∧ c.isOf r = true) :
    Follows (outlineAll t.children) (visitAll visit) := by
  have hloop : ∀ ks : List t.Sub, (∀ k ∈ ks, k ∈ t.subs) → ∀ found : Ty,
      Follows (ks.flatMap (·.tree.outline)) (ks.foldlM (fun found k => do
        let type ← visit k
        return if type = .unknown then found else type) found) := by
    intro ks hks
    induction ks with
    | nil => exact fun _ => .pure _
    | cons k ks ih =>
      intro found
      rw [forall_mem_cons] at hks
      rw [foldlM_cons, flatMap_cons]
      refine .bind (.andReturn ?_ _) fun _ => ih hks.2 _
      rcases hchs k.tree (mem_children_of_mem_subs hks.1) with ⟨tok, htok⟩ | ⟨r, hr, hof⟩
      · rw [htok]
        exact .of_onlyComplains (hv.token k tok htok)
      · exact hv.follows k (.of_subs hks.1) r hr hof
  rw [outlineAll_eq, ← subs_map_tree, flatMap_map]
  exact hloop _ (fun _ hk => hk) _

/-! ### Declarations of variables -/

omit hv in
lemma follows_named {k : String → Check β} (hk : ∀ x, nameIn t.children = [x] → Follows os (k x)) :
    Follows os (tokenText t .identifier >>= k) := by
  intro s b s' hrun
  obtain ⟨x, hx, hrun⟩ := hrun.of_need
  exact hk x (nameIn_eq hx) s b s' hrun

omit hv in
lemma onlyComplains_element (p : Pos) (type : Ty) : OnlyComplains (match type with
    | .array elem => pure elem
    | _ => do
      complain p .foreachOverNoArray
      pure .null : Check Ty) := by
  split
  · exact .pure _
  · exact onlyComplains.complaining _ rfl _

lemma follows_foreach (h : Derives P .foreachStatement t) :
    Follows t.outline (foreachStatement t visit) := by
  have hqu := onlyComplains_element t.pos
  have helem : Follows ((usesOf true t.children).map .use) _ :=
    hv.follows_children h (by decide) (.bind hv.complains_kid hqu) fun s a hs => by
      obtain ⟨type, hvis, hs⟩ := hs.of_bind hv.complains_kid hqu
      refine visited_kid h (by decide) hvis fun _ hty => ?_
      rw [hty] at hs
      exact Silent.of_complain rfl (fun _ => .pure _) hs
  have hbd : ∀ elem, Follows ((nameIn t.children).map (.declare t.pos) ++ outlineAll t.children) (do
        define t.pos (.ofVariable (← tokenText t .identifier) elem false true)
        loopBody t visit) := by
    intro elem
    refine follows_named fun x hx => ?_
    rw [hx]
    exact (Follows.define t.pos (.ofVariable x elem false true)).bind fun _ =>
      hv.follows_loopBody h (by decide) (by decide)
  have hall := helem.bind fun elem => (hbd elem).scope.andReturn fun _ => Ty.unknown
  obtain ⟨_, _, _, -, -, rfl⟩ := id h
  simp only [bind_assoc] at hall
  refine cast (congrArg _ (bind_congr fun type => ?_)) hall
  cases type <;> simp only [pure_bind, bind_assoc]

omit hv in
lemma mem_usesOf_variable (h : Derives P .variableDeclaration t) {u : String}
    (hu : u ∈ usesOf false t.children) :
    ∃ e, initialValue? t = some e ∧ u ∈ usesOf false [e.tree] := by
  have hol : Rule.MentionsOnly .variableDeclaration fun q =>
      q = .initializer ∨ q.hasUses = false := by decide
  obtain ⟨c, hc, hu | ⟨hasked, -⟩⟩ := mem_usesOf.1 hu
  · rcases h.leaf_or_mentioned hc with ⟨tok, rfl⟩ | ⟨q, hof, a, ha, hment⟩
    · cases hu
    rcases hol a ha q (Rule.mem_all q) hment with rfl | hq
    · obtain ⟨i, hi, rfl⟩ := exists_kid hc hof
      have hder : Derives P .initializer i.tree := h.of_isOf (.of_mem hc) hof
      have huses : i.tree.uses = usesOf false i.tree.children := by
        obtain ⟨_, _, _, -, -, heq⟩ := id hder
        rw [heq]
        rfl
      rw [huses] at hu
      obtain ⟨e, he, hue⟩ := mem_usesOf_children hder (by decide) hu
      refine ⟨i.lift e, ?_, hue⟩
      rw [initialValue?, h.kid?_of_mem (by decide) hi, Option.bind_some,
        hder.kid?_of_mem (by decide) he, Option.map_some]
    · rw [(uses_of_derives (h.of_isOf (.of_mem hc) hof) hq).1] at hu
      cases hu
  · cases hasked

lemma follows_variable (h : Derives P .variableDeclaration t) :
    Follows t.outline (declareVariable t visit) := by
  have hout : t.outline = (nameIn t.children).map (.declare t.pos) ++
      (usesOf false t.children).map .use := by
    obtain ⟨_, _, _, -, -, rfl⟩ := id h
    rfl
  have hhd : Follows ((nameIn t.children).map (.declare t.pos)) (variableHead t visit) := by
    refine follows_named fun x hx => ?_
    rw [hx]
    split
    · exact (Follows.define t.pos _).andReturn _
    · rename_i e _ he
      obtain ⟨hin, hof⟩ := isExpression_initializer e he
      exact .after (.recover (.map (hv.complains e hin hof))) fun _ =>
        (Follows.define t.pos _).andReturn _
    · exact .after (onlyComplains.complain _ rfl) fun _ => (Follows.define t.pos _).andReturn _
  rw [hout, declareVariable_eq]
  refine hhd.bind fun head => ?_
  cases he : initialValue? t with
  | none =>
    refine .of_uses (.pure _) fun _ _ _ u hu => ?_
    obtain ⟨e, he', -⟩ := mem_usesOf_variable h hu
    cases he.symm.trans he'
  | some e =>
    obtain ⟨hin, hof⟩ := isExpression_initializer e he
    have hvis := hv.complains e hin hof
    have hcmp : ∀ found : Ty, OnlyComplains (do
        require (← accept head.2 found.orNull) t.pos
          (.variableMismatch head.1 head.2 found.orNull)
        return Ty.unknown : Check Ty) := fun found => onlyComplains_compared _ _ _ rfl _
    refine .of_uses (.bind hvis hcmp) fun s a hs u hu => ?_
    obtain ⟨e', he', hue⟩ := mem_usesOf_variable h hu
    cases Option.some.inj (he.symm.trans he')
    obtain ⟨found, hfd, -⟩ := hs.of_bind hvis hcmp
    exact hv.declared e hin hof s false ⟨found, hfd, by simp⟩ u hue

/-! ### Functions -/

omit hv in
lemma gives_parameters {s' : Checker} {params : List (String × Ty)}
    (h : Gives (parameters f) s params s') :
    s' = s ∧ params.map Prod.fst = paramsIn f.children := by
  have hmap : ∀ {d : Tree} (ks : List d.Sub) {params : List (String × Ty)},
      Gives (ks.mapM fun p => do
        return (← tokenText p.tree .identifier, (p.tree.typeOf? .typeExpr).getD .null))
        s params s' →
      s' = s ∧ params.map Prod.fst = (ks.map Sub.tree).flatMap fun p =>
        nameIn p.children := by
    intro d ks
    induction ks with
    | nil =>
      intro params h
      cases h
      exact ⟨rfl, rfl⟩
    | cons p ks ih =>
      intro params h
      rw [mapM_cons, bind_assoc] at h
      obtain ⟨x, hx, h⟩ := h.of_need
      rw [pure_bind] at h
      obtain ⟨rest, s1, hrs, h⟩ := h.of_bind
      cases h
      obtain ⟨hs, hnms⟩ := ih hrs
      refine ⟨hs, ?_⟩
      rw [map_cons, map_cons, flatMap_cons, hnms]
      exact congrArg (· ++ _) (nameIn_eq hx).symm
  have hfind : f.children.find? (·.isOf .parameters) = (f.kid? .parameters).map Sub.tree := by
    rw [kid?_map_tree, head?_filter]
  unfold parameters at h
  rw [paramsIn, hfind]
  cases hk : f.kid? .parameters with
  | none =>
    rw [hk] at h
    cases h
    exact ⟨rfl, rfl⟩
  | some ps =>
    rw [hk] at h
    obtain ⟨hs, hnms⟩ := hmap _ h
    rw [kids_map_tree] at hnms
    exact ⟨hs, hnms⟩

omit hv in
lemma follows_parameters {k : List (String × Ty) → Check β}
    (hk : ∀ params, params.map Prod.fst = paramsIn f.children → Follows os (k params)) :
    Follows os (parameters f >>= k) := by
  intro s b s' hrun
  obtain ⟨params, s1, hpars, hrs⟩ := hrun.of_bind
  obtain ⟨hs, hnms⟩ := gives_parameters hpars
  rw [hs] at hrs
  exact hk params hnms s b s' hrs

lemma follows_function (h : Derives P .functionDeclaration t) :
    Follows t.outline (declareFunction t visit) := by
  have hout : t.outline = (nameIn t.children).map (.declare t.pos) ++
      [.scope ((paramsIn t.children).map (.declare t.pos) ++
        outlineAll t.children)] := by
    obtain ⟨_, _, _, -, -, rfl⟩ := id h
    rfl
  unfold declareFunction
  refine follows_named fun x hx => follows_parameters fun params hpars => ?_
  rw [hout, hx, ← hpars, map_map, outlineAll_children (q := .block) h (by decide)]
  dsimp only
  refine (Follows.define t.pos (.ofFunction x _ params)).bind fun _ => ?_
  have hsc := (Follows.functionBody t.pos (.ofFunction x ((t.typeOf? .typeExpr).getD .null) params)
    params ((hv.follows_kid (q := .block) h rfl (by decide)).andReturn fun _ => ())).scope.andReturn
      fun _ => Ty.unknown
  simp only [bind_assoc] at hsc
  exact hsc

end Tracks

/-- The value of a statement that may have none. -/
def valueOf (t : Tree) (visit : t.Sub → Check Ty) : Check Ty :=
  match t.kid? .expression with
  | some e => visit e
  | none => pure .null

lemma declareConstant_eq (t : Tree) (visit : t.Sub → Check Ty) : declareConstant t visit = (do
    let x ← tokenText t .identifier
    let found ← valueOf t visit
    match t.markedType? with
    | some type => require (← accept type found) t.pos (.constantMismatch x type found)
    | none => pure ()
    define t.pos (.ofVariable x (t.markedType?.getD found) true true)
    return .unknown) := by
  unfold declareConstant valueOf
  refine bind_congr fun x => ?_
  cases t.kid? .expression <;> rfl

lemma returnStatement_eq (t : Tree) (visit : t.Sub → Check Ty) : returnStatement t visit = (do
    match (← get).function with
    | none => do
      complain t.pos .returnOutsideFunction
      return .unknown
    | some f =>
      let found ← valueOf t visit
      require (← accept f.type found) t.pos (.returnMismatch found f.type)
      return .unknown) := by
  unfold returnStatement valueOf
  refine bind_congr fun s => ?_
  cases s.function <;> rcases t.kid? .expression with _ | e <;> simp only [pure_bind]

variable {x : String}

lemma assignVariable_eq (hx : t.tokenText? .identifier = some x) :
    assignVariable t visit = (do
      match ← resolve? x with
      | none => do
        complain t.pos (.undeclared x)
        return .unknown
      | some sym =>
        require (!sym.isConst) t.pos (.constantAssigned x)
        let found ← valueOf t visit
        require (← accept sym.type found) t.pos (.variableMismatch x sym.type found)
        modify fun s => { s with scopes := s.scopes.update x Symbol.initialized }
        return .unknown) := by
  unfold assignVariable valueOf
  rw [hx, Option.getD_some]
  refine bind_congr fun sym => ?_
  cases sym <;> rcases t.kid? .expression with _ | e <;> simp only [pure_bind]

lemma assignProperty_eq {a b : t.Sub} (hx : t.tokenText? .identifier = some x)
    (hkd : t.kids .expression = [a, b]) : assignProperty t visit = (do
      let object ← visit a
      let found ← visit b
      assignField t.pos x object found
      return .unknown) := by
  unfold assignProperty
  rw [hkd, hx]
  rfl

namespace Tracks

variable (hv : Tracks t visit)

include hv

lemma complains_valueOf : OnlyComplains (valueOf t visit) := by
  unfold valueOf
  split
  · rename_i e he
    exact hv.complains e (isExpression_of_kid? he).1 (isExpression_of_kid? he).2
  · exact .pure _

variable {s : Checker} {x : String}

omit hv in
lemma visited_of_valueOf
    (hkd : ∀ e, t.kid? .expression = some e → t.kids .expression = [e]) {type : Ty}
    {asked : Bool} (hs : Silent (valueOf t visit) s type)
    (hasked : asked = true → type ≠ .unknown) :
    ∀ e ∈ t.kids .expression, Visited visit s asked e := by
  unfold valueOf at hs
  cases he : t.kid? .expression with
  | some e =>
    rw [he] at hs
    rw [hkd e he, forall_mem_singleton]
    exact ⟨type, hs, hasked⟩
  | none =>
    rw [head?_eq_none_iff.1 he]
    exact fun _ he => nomatch he

/-- What is left of a constant is a value of its type, if one is written. -/
def heldTo (t : Tree) (x : String) (found : Ty) : Check Ty :=
  match t.markedType? with
  | some type => do
    require (← accept type found) t.pos (.constantMismatch x type found)
    return found
  | none => return found

lemma follows_constant (h : Derives P .constantDeclaration t) :
    Follows t.outline (declareConstant t visit) := by
  have hout : t.outline = (usesOf (t.children.any (·.isOf .typeMark)) t.children).map .use ++
        (nameIn t.children).map (.declare t.pos) := by
    obtain ⟨_, _, _, -, -, rfl⟩ := id h
    rfl
  have hqu : ∀ x found, OnlyComplains (heldTo t x found) := by
    intro x found
    unfold heldTo
    split
    · exact onlyComplains_compared _ _ _ rfl _
    · exact .pure _
  have hval : ∀ x, Follows ((usesOf (t.children.any (·.isOf .typeMark)) t.children).map .use)
      (valueOf t visit >>= heldTo t x) := by
    intro x
    refine hv.follows_children h (by decide)
      (.bind hv.complains_valueOf (hqu x)) fun s a hs => ?_
    obtain ⟨found, hfd, hs⟩ := hs.of_bind hv.complains_valueOf (hqu x)
    refine visited_of_valueOf (fun _ => h.kids_of_kid? (by decide)) hfd fun hmk => ?_
    -- A written type is compared with what was found.
    obtain ⟨m, hm⟩ := Option.isSome_iff_exists.1 (isSome_kid? (any_eq_true.1 hmk))
    rw [heldTo, markedType?, hm] at hs
    exact (hs.of_accept rfl fun _ => .pure _).1.2
  have hall : Follows t.outline (do
      let x ← tokenText t .identifier
      let found ← valueOf t visit >>= heldTo t x
      define t.pos (.ofVariable x (t.markedType?.getD found) true true)
      return Ty.unknown) := by
    refine follows_named fun x hx => ?_
    rw [hout, hx]
    exact (hval x).bind fun found =>
      (Follows.define t.pos (.ofVariable x (t.markedType?.getD found) true true)).andReturn _
  refine cast (congrArg _ (bind_congr fun x => ?_)) hall
  unfold valueOf heldTo
  rcases t.kid? .expression with _ | e <;> cases t.markedType? <;>
    simp only [pure_bind, bind_assoc]

lemma follows_return (h : Derives P .returnStatement t) :
    Follows t.outline (returnStatement t visit) := by
  have hout : t.outline = (usesOf true t.children).map .use := by
    obtain ⟨_, _, _, -, -, rfl⟩ := id h
    rfl
  have hrs : ∀ (f : Symbol) (found : Ty), OnlyComplains (do
      require (← accept f.type found) t.pos (.returnMismatch found f.type)
      return Ty.unknown : Check Ty) := fun f found =>
    onlyComplains_compared _ _ _ rfl _
  rw [hout, returnStatement_eq]
  refine hv.follows_children h (by decide) (onlyComplains.get fun s => ?_) fun s a hs => ?_
  · split
    · exact onlyComplains.complaining _ rfl _
    · exact .bind hv.complains_valueOf (hrs _)
  · replace hs := Gives.of_get hs
    split at hs
    · exact (Silent.of_complain rfl (fun _ => .pure _) hs).elim
    · obtain ⟨found, hfd, hs⟩ := Silent.of_bind hv.complains_valueOf (hrs _) hs
      exact visited_of_valueOf (fun _ => h.kids_of_kid? (by decide)) hfd fun _ =>
        (hs.of_accept rfl fun _ => .pure _).1.2

/-! ### Assignments -/

omit hv in
lemma children_assignment (h : Derived .assignment t) :
    (∃ x o e l, t.children = [.leaf x, .leaf o, e, .leaf l] ∧ x.kind = .identifier ∧
      o.text = "=" ∧ e.isOf .expression = true) ∨
    ∃ a o x q b l, t.children = [a, .leaf o, .leaf x, .leaf q, b, .leaf l] ∧ o.kind = .dot ∧
      o.text = "." ∧ x.kind = .identifier ∧ a.isOf .expression = true ∧
      b.isOf .expression = true := by
  obtain ⟨e, p, cs, he, hcs, rfl⟩ := h
  rcases mem_pair.1 he with rfl | rfl
  · cases hcs with
    | token _ hx hcs => cases hcs with
    | token ho hk hcs => cases hcs with
    | rule _ _ hcs => cases hcs with
    | token _ _ hcs => cases hcs with
    | nil => exact .inl ⟨_, _, _, _, rfl, hx, ho.text_eq (by rw [hk]; rfl),
        beq_self_eq_true _⟩
  · cases hcs with
    | rule _ _ hcs => cases hcs with
    | token ho hk hcs => cases hcs with
    | token _ hx hcs => cases hcs with
    | token _ _ hcs => cases hcs with
    | rule _ _ hcs => cases hcs with
    | token _ _ hcs => cases hcs with
    | nil =>
      exact .inr ⟨_, _, _, _, _, _, rfl, hk, ho.text_eq (by rw [hk]; rfl), hx, beq_self_eq_true _,
        beq_self_eq_true _⟩

lemma follows_assignVariable (h : Derives P .assignment t) (hx : t.tokenText? .identifier = some x)
    (hkd : ∀ e, t.kid? .expression = some e → t.kids .expression = [e]) :
    Follows (.assign t.pos x :: (usesOf true t.children).map .use) (assignVariable t visit) := by
  have hmk : Follows [] (modify fun s => { s with
      scopes := s.scopes.update x Symbol.initialized } : Check Unit) :=
    .of_modify (fun s => Scopes.names_markInitialized s.scopes x) (fun _ => rfl) fun _ =>
      prefix_rfl
  have hacc : ∀ (sym : Symbol) (found : Ty), OnlyComplains (do
      require (← accept sym.type found) t.pos (.variableMismatch x sym.type found)) :=
    fun sym found => onlyComplains_compare _ _ _ rfl
  have hval : ∀ sym : Symbol, Follows ((usesOf true t.children).map .use) (do
      require (!sym.isConst) t.pos (.constantAssigned x)
      let found ← valueOf t visit
      require (← accept sym.type found) t.pos (.variableMismatch x sym.type found)) := by
    intro sym
    have hqu := OnlyComplains.bind hv.complains_valueOf (hacc sym)
    refine hv.follows_children h (by decide) (.bind
      (.require _ _ rfl) fun _ => hqu) fun s a hs => ?_
    obtain ⟨-, hs⟩ := hs.of_require rfl fun _ => hqu
    obtain ⟨found, hfd, hs⟩ := hs.of_bind hv.complains_valueOf (hacc sym)
    exact visited_of_valueOf hkd hfd fun _ => (hs.known rfl).2
  rw [assignVariable_eq hx]
  intro s a s' hrun
  obtain ⟨found, s1, hfd, hrun⟩ := hrun.of_bind
  cases hfd
  cases hx : s.scopes.resolve? x with
  | none =>
    rw [hx] at hrun
    obtain ⟨_, s1, hcom, hrun⟩ := hrun.of_bind
    cases hcom.of_modify
    cases hrun
    exact .undeclared hx t.pos _
  | some sym =>
    rw [hx] at hrun
    have hrs := (hval sym).bind fun _ => hmk.andReturn fun _ => Ty.unknown
    rw [append_nil] at hrs
    simp only [bind_assoc] at hrs
    have hass := Checker.Traced.assigned (s := s) (x := x) (by rw [hx]; exact nofun) t.pos
    exact hass.trans (hrs s a s' hrun)

omit hv in
lemma known_of_assignField {p : Pos} {field : String} {object found : Ty}
    {u : Unit} (hs : Silent (assignField p field object found) s u) :
    object ≠ .unknown ∧ found ≠ .unknown := by
  have hcom : ∀ {c : Complaint}, c.isOrdinary = true → Silent (complain p c) s u →
      False := by
    intro c hc hs
    rw [← bind_pure (complain p c)] at hs
    exact hs.of_complain hc fun _ => .pure _
  unfold assignField at hs
  split at hs
  · obtain ⟨id?, s1, hid, hs⟩ := Gives.of_bind hs
    cases hid
    split at hs
    · exact (hcom rfl hs).elim
    · replace hs := Gives.of_get hs
      split at hs
      · exact (hcom rfl hs).elim
      · rename_i sym _
        obtain ⟨-, hs⟩ := Silent.of_require rfl (fun _ => onlyComplains_compare _ _ _ rfl) hs
        exact ⟨nofun, (Silent.known rfl hs).2⟩
  · exact (hcom rfl hs).elim

lemma follows_assignProperty (h : Derives P .assignment t) {a b : t.Sub}
    (hx : t.tokenText? .identifier = some x) (hkd : t.kids .expression = [a, b]) :
    Follows ((usesOf true t.children).map .use) (assignProperty t visit) := by
  have ha : IsExpression a := isExpression_of_mem (by rw [hkd]; exact (.head _))
  have hb : IsExpression b := isExpression_of_mem (by rw [hkd]; simp)
  have hfld : ∀ object found : Ty, OnlyComplains (do
      assignField t.pos x object found
      return Ty.unknown : Check Ty) := fun object found =>
    .map (onlyComplains.assignField _ _ _ _)
  have hsnd := fun object => OnlyComplains.bind (hv.complains b hb.1 hb.2) (hfld object)
  rw [assignProperty_eq hx hkd]
  refine hv.follows_children h (by decide) (.bind (hv.complains a ha.1 ha.2)
    hsnd) fun s r hs => ?_
  obtain ⟨object, hobj, hs⟩ := hs.of_bind (hv.complains a ha.1 ha.2) hsnd
  obtain ⟨found, hfd, hs⟩ := hs.of_bind (hv.complains b hb.1 hb.2) (hfld object)
  obtain ⟨_, hs, -⟩ := hs.of_bind (onlyComplains.assignField _ _ _ _) fun _ =>
    .pure _
  obtain ⟨hobjectKnown, hfoundKnown⟩ := known_of_assignField hs
  rw [hkd, forall_mem_cons, forall_mem_singleton]
  exact ⟨⟨object, hobj, fun _ => hobjectKnown⟩, ⟨found, hfd, fun _ => hfoundKnown⟩⟩

lemma follows_assignment (h : Derived .assignment t) : Follows t.outline (assignment t visit) := by
  have hout : t.outline = (targetIn t.children).map (.assign t.pos) ++
      (usesOf true t.children).map .use := by
    obtain ⟨_, _, _, -, -, rfl⟩ := id h
    rfl
  rw [hout]
  unfold assignment
  rcases children_assignment h with ⟨x, o, e, l, hchs, hx, ho, he⟩ |
    ⟨a, o, x, q, b, l, hchs, hdot, ho, hx, ha, hb⟩
  · have hnm : t.tokenText? .identifier = some x.text := by
      simp [tokenText?, tokenTexts, hchs, isToken, token?, hx, text]
    rw [if_pos (by simp [childText?, hchs, text, ho])]
    have htar : targetIn t.children = [x.text] := by rw [hchs]; rfl
    rw [htar]
    obtain ⟨ke, hkd, -⟩ := kids_eq_singleton (t := t) (r := .expression) (c := e)
      (by simp [hchs, he])
    refine hv.follows_assignVariable h hnm fun k hk => ?_
    rw [kid?, hkd] at hk
    rw [hkd, Option.some.inj hk]
  · have hnm : t.tokenText? .identifier = some x.text := by
      cases a with
      | node => simp [tokenText?, tokenTexts, hchs, isToken, token?, hdot,
          hx, text]
      | leaf | bad => cases ha
    obtain ⟨ka, kb, hkd, -, -⟩ := kids_eq_pair (t := t) (r := .expression) (c := a) (d := b)
      (by simp [hchs, ha, hb])
    rw [if_neg (by simp [childText?, hchs, text, ho])]
    have htar : targetIn t.children = [] := by
      rw [hchs]
      cases a with
      | node => rfl
      | leaf | bad => cases ha
    rw [htar]
    exact hv.follows_assignProperty h hnm hkd

/-! ### Loops with a header -/

omit hv in
/-- What a `for` starts with is a token, a declaration or an assignment. -/
lemma children_for (h : Derives P .forStatement t) : ∃ k o start rest,
    t.children = .leaf k :: .leaf o :: start :: rest ∧
    ((∃ tok, start = .leaf tok) ∨ ∃ r : Rule, r.isStatement = true ∧ r ≠ .block ∧
      start.isOf r = true) ∧
    ∀ c ∈ rest, (∃ tok, c = .leaf tok) ∨ c.isOf .expression = true ∨ c.isOf .block = true := by
  have hhea : ∀ {cs : List Tree}, Parses P [.optional [.rule .expression], .token .semicolon,
      .optional [.rule .expression], .token .closeParen, .rule .block] cs →
      ∀ c ∈ cs, (∃ tok, c = .leaf tok) ∨ c.isOf .expression = true ∨ c.isOf .block = true := by
    intro cs hcs c hc
    have hol : ∀ q ∈ Rule.all, Item.mentionsIn q [.optional [.rule .expression],
        .token .semicolon, .optional [.rule .expression], .token .closeParen, .rule .block] = true →
        q = .expression ∨ q = .block := by decide
    rcases hcs.derives_of_mem hc with ⟨tok, -, rfl⟩ | ⟨q, e, p, cs', -, -, rfl⟩
    · exact .inl ⟨tok, rfl⟩
    · have hof : (Tree.node ⟨q, e.label⟩ p cs').isOf q = true := beq_self_eq_true _
      rcases hol q (Rule.mem_all q) (hcs.mentions_of_mem hc hof) with rfl | rfl
      · exact .inr (.inl hof)
      · exact .inr (.inr hof)
  obtain ⟨e, p, cs, he, hcs, rfl⟩ := h
  cases mem_singleton.1 he
  cases hcs with
  | token _ _ hcs => cases hcs with
  | token _ _ hcs => cases hcs with
  | choice hbd hcs =>
    simp only [mem_cons, not_mem_nil, or_false] at hbd
    rcases hbd with rfl | rfl | rfl
    · cases hcs with
      | rule _ _ hcs =>
        exact ⟨_, _, _, _, rfl, .inr ⟨.variableDeclaration, rfl, nofun, beq_self_eq_true _⟩,
          hhea hcs⟩
    · cases hcs with
      | rule _ _ hcs =>
        exact ⟨_, _, _, _, rfl, .inr ⟨.assignment, rfl, nofun, beq_self_eq_true _⟩,
          hhea hcs⟩
    · cases hcs with
      | token _ _ hcs => exact ⟨_, _, _, _, rfl, .inl ⟨_, rfl⟩, hhea hcs⟩

lemma follows_forStart {k o : Token} {start : Tree} {rest : List Tree}
    (hchs : t.children = .leaf k :: .leaf o :: start :: rest)
    (hst : (∃ tok, start = .leaf tok) ∨ ∃ r : Rule, r.isStatement = true ∧ r ≠ .block ∧
      start.isOf r = true) : Follows start.outline (forStart t visit) := by
  obtain ⟨first, hfst, rfl⟩ := exists_sub (t := t) (i := 2) (by rw [hchs]; rfl)
  have hin := Within.of_subs (mem_of_getElem? hfst)
  rw [forStart, hfst]
  rcases hst with ⟨tok, htok⟩ | ⟨r, hr, -, hof⟩
  · rw [htok]
    exact (Follows.of_onlyComplains (hv.token first tok htok)).andReturn _
  · exact (hv.follows first hin r hr hof).andReturn _

lemma follows_forHeader (h : Derives P .forStatement t) {cs : List Tree}
    (hcs : (t.kids .expression).map Sub.tree = cs.filter (·.isOf .expression)) :
    Follows ((usesOfHeader cs).map .use) (forHeader t visit) := by
  have hcond : ∀ e : t.Sub, IsExpression e → Follows
      ((usesOf true [e.tree]).map .use) (condition t visit .for (some e)) := by
    intro e he
    have hp : ∀ k, some e = some k → IsExpression k := fun k hk => Option.some.inj hk ▸ he
    refine hv.follows_uses (hv.complains_condition .for hp)
      (forall_mem_singleton.2 he) (fun s a hs => ?_)
      fun u hu => ⟨e, mem_singleton_self e, hu⟩
    rw [forall_mem_singleton]
    exact ⟨.boolean, hv.visited_of_condition hp hs, nofun⟩
  have hupd : ∀ e : t.Sub, IsExpression e → Follows
      ((usesOf false [e.tree]).map .use) (visit e) := by
    intro e he
    refine hv.follows_uses (hv.complains e he.1 he.2) (forall_mem_singleton.2 he)
      (fun s a hs => ?_) fun u hu => ⟨e, mem_singleton_self e, hu⟩
    rw [forall_mem_singleton]
    exact ⟨a, hs, nofun⟩
  have hex : ∀ e ∈ t.kids .expression, IsExpression e := fun _ => isExpression_of_mem
  have hlen : (t.kids .expression).length ≤ 2 := h.length_kids_le le_rfl (by decide)
  unfold usesOfHeader forHeader
  rw [← hcs]
  generalize t.kids .expression = es at hex hlen
  match es with
  | [] => exact .pure _
  | [e] =>
    rw [forall_mem_singleton] at hex
    have hone := (hcond e hex).andReturn fun _ => ()
    rw [← append_nil (usesOf true [e.tree])] at hone
    exact hone
  | [e, e'] =>
    rw [forall_mem_cons, forall_mem_singleton] at hex
    rw [map_cons, map_singleton, map_append]
    exact (hcond e hex.1).bind fun _ => (hupd e' hex.2).andReturn _
  | _ :: _ :: _ :: _ => simp at hlen

lemma follows_for (h : Derives P .forStatement t) : Follows t.outline (forStatement t visit) := by
  obtain ⟨k, o, start, rest, hchs, hst, hrs⟩ := children_for h
  have hout : t.outline = start.outline ++ ((usesOfHeader rest).map .use ++ outlineAll rest) := by
    obtain ⟨_, _, cs, -, -, heq⟩ := id h
    rw [heq, children_node] at hchs
    rw [heq, hchs, outline, append_assoc]
  -- What starts the loop is none of its expressions or blocks, so it can be taken apart.
  have hnot : ∀ q : Rule, q = .expression ∨ q = .block → start.isOf q = false := by
    rintro q hq
    rcases hst with ⟨tok, rfl⟩ | ⟨r, hr, hblk, hof⟩
    · rfl
    · refine isOf_eq_false hof ?_
      rintro rfl
      rcases hq with rfl | rfl
      · cases hr
      · exact hblk rfl
  have hkd : ∀ q : Rule, q = .expression ∨ q = .block →
      (t.kids q).map Sub.tree = rest.filter (·.isOf q) := by
    intro q hq
    rw [kids_map_tree, hchs, filter_cons_of_neg Bool.false_ne_true,
      filter_cons_of_neg Bool.false_ne_true, filter_cons_of_neg (by simp [hnot q hq])]
  have hall : outlineAll rest = (t.kids .block).flatMap (·.tree.outline) := by
    rw [outlineAll_eq, flatMap_eq_filter (q := .block), ← hkd .block (.inr rfl),
      flatMap_map]
    intro c hc hno
    rcases hrs c hc with ⟨tok, rfl⟩ | hof | hof
    · rfl
    · exact outline_of_isOf hof rfl
    · rw [hof] at hno
      cases hno
  rw [hout, hall, forStatement_eq]
  exact (Follows.loop ((hv.follows_forStart hchs hst).bind fun _ =>
    (hv.follows_forHeader h (hkd .expression (.inl rfl))).bind fun _ =>
      (hv.follows_kid (q := .block) h rfl (by decide)).andReturn fun _ => ())).andReturn _

end Tracks

end Check

end Compiscript
