import Compiscript.Proofs.Check.Runs

/-!
# Statements from State to State

What the checks of statements do to a state that is ready for them.

For each kind of statement there is a lemma that leads from a state that is ready to one
that is ready again, given the same for its parts.
-/

namespace Compiscript

open List hiding modify
open Compiscript.Tree

section Grammar

variable {r : Rule} {t : Tree}

/-- A part that every expansion of a rule has. -/
lemma Derives.exists_kid? {P : Token → Prop} (h : Derives P r t) {q : Rule}
    (hq : ∀ e ∈ production r, e.body.any (·.shows (.rule q)) = true) : ∃ k, t.kid? q = some k := by
  obtain ⟨e, p, cs, he, hcs, rfl⟩ := h
  obtain ⟨item, hmem, hsho⟩ := any_eq_true.1 (hq e he)
  obtain ⟨c, hc, hft⟩ := hcs.exists_part hmem hsho
  exact Option.isSome_iff_exists.1 (isSome_kid? ⟨c, hc, hft⟩)

/-- The name that every expansion of a rule has. -/
lemma Derives.exists_name (h : Derived r t)
    (hq : ∀ e ∈ production r, e.body.any (·.shows (.token .identifier)) = true) :
    ∃ x, t.tokenText? .identifier = some x ∧ IsWritable x := by
  obtain ⟨e, p, cs, he, hcs, rfl⟩ := h
  obtain ⟨item, hmem, hsho⟩ := any_eq_true.1 (hq e he)
  obtain ⟨c, hc, hft⟩ := hcs.exists_part hmem hsho
  obtain ⟨x, hx⟩ := Option.isSome_iff_exists.1
    (isSome_tokenText? (t := .node ⟨r, e.label⟩ p cs) ⟨c, hc, hft⟩)
  refine ⟨x, hx, .inr ?_⟩
  obtain ⟨d, hd, rfl⟩ := mem_map.1 (mem_of_head? hx)
  obtain ⟨hd, hkd⟩ := mem_filter.1 hd
  rcases hcs.derives_of_mem hd with ⟨tok, htok, rfl⟩ | ⟨q, _, _, _, -, -, rfl⟩
  · have hkd : tok.kind = .identifier := eq_of_beq hkd
    exact hkd ▸ htok.resolve_left (by rw [hkd]; nofun)
  · cases hkd

end Grammar

namespace Tree

variable {bound : List String} {cs : List Tree}

lemma readsOnlyAll_filter {p : Tree → Bool} (h : readsOnlyAll bound cs = true)
    (hno : ∀ c ∈ cs, p c = false → c.declares = []) : readsOnlyAll bound (cs.filter p) = true := by
  induction cs generalizing bound with
  | nil => rfl
  | cons c cs ih =>
    rw [forall_mem_cons] at hno
    rw [readsOnlyAll, Bool.and_eq_true] at h
    cases hc : p c with
    | true =>
      rw [filter_cons_of_pos hc, readsOnlyAll, Bool.and_eq_true]
      exact ⟨h.1, ih h.2 hno.2⟩
    | false =>
      rw [hno.1 hc, nil_append] at h
      rw [filter_cons_of_neg (by simp [hc])]
      exact ih h.2 hno.2

variable {t : Tree}

/-- A declaration declares its first identifier. -/
lemma declares_eq {P : Token → Prop} {r : Rule} (h : Derives P r t) {x : String}
    (hr : r = .variableDeclaration ∨ r = .constantDeclaration ∨ r = .functionDeclaration ∨
      r = .classDeclaration) (hx : t.tokenText? .identifier = some x) : t.declares = [x] := by
  rw [← nameIn_eq hx]
  obtain ⟨_, _, _, -, -, rfl⟩ := h
  rcases hr with rfl | rfl | rfl | rfl <;> rfl

/-- A written type is known, and so is one that is left out. -/
lemma isProper_typeOf? (t : Tree) (r : Rule) : ((t.typeOf? r).getD .null).IsProper := by
  unfold typeOf?
  cases t.kid? r with
  | none => trivial
  | some k => exact Ty.isProper_ofName _

lemma isProper_markedType? {T : Ty} (h : t.markedType? = some T) : T.IsProper := by
  obtain ⟨m, -, rfl⟩ := Option.map_eq_some_iff.1 h
  exact isProper_typeOf? m.tree .typeExpr

end Tree

namespace Check

variable {sure : Prop} {before : List ClassInfo} {bound : List String} {s : Checker} {t : Tree}

/-- The check of a statement leads from a state that is ready to one that is ready again, with the
    names declared that it declares. It surely does if it reads only names that are declared. -/
def Carries (sure : Prop) (c : Tree) : Prop :=
  ∀ before bound s, s.Ready sure before bound → (sure → c.readsOnly bound = true) →
    Readies sure s before (c.declares ++ bound) (check c)

/-- The parts of a statement, a `switch` among them, lead on. -/
def PartsCarry (sure : Prop) (t : Tree) : Prop :=
  ∀ c q, c.Within t → sizeOf c < sizeOf t → c.isOf q = true →
    (q.isStatement = true ∨ q = .switchStatement) → Carries sure c

lemma runs_expression {r : Rule} (h : Derived r t) {e : Tree} (he : e.Within t)
    (hof : e.isOf .expression = true) (hs : s.Ready sure before bound)
    (hrd : sure → e.readsOnly bound = true) :
    Runs sure s (fun T s' => T.Sound sure ∧ s'.Ready sure before bound) (check e) :=
  .of_answers hs (answers_of_derives hs.sound (h.of_isOf he hof) rfl ⟨by decide, by decide⟩
    fun hsu x hx => hs.declared hsu x ((readsOnly_iff hof rfl).1 (hrd hsu) x hx))

lemma answers_assignField (hs : s.Sound sure) (p : Pos) (field : String) (object found : Ty) :
    Answers sure s (fun _ => True) (assignField p field object found) := by
  have hcom : ∀ c, Answers sure s (fun _ => True) (complain p c) := fun c =>
    .of_finds (Finds.require false p c)
  unfold assignField
  split
  · refine (Answers.class? _).bind fun id? _ => ?_
    split
    · exact hcom _
    · refine .get fun es => ?_
      split
      · exact hcom _
      · rename_i sym hsym
        have hT : sym.type.Sound sure := (hs.field? hsym).type
        exact .require _ _ _ ((Answers.accept hT found).bind fun _ _ =>
          .of_finds (Finds.require _ _ _))
  · exact hcom _

section Statement

variable {r : Rule} (h : Derived r t) (hs : s.Ready sure before bound)

include h hs

lemma runs_kid {e : t.Sub} (he : t.kid? .expression = some e)
    (hrd : sure → ∀ c ∈ t.children, c.readsOnly bound = true) :
    Runs sure s (fun T s' => T.Sound sure ∧ s'.Ready sure before bound)
      (visitPart (check ·.tree) (t.kid? .expression)) := by
  obtain ⟨hmem, hof⟩ := of_kid? he
  exact .visitPart he (runs_expression h (.of_mem hmem) hof hs fun hsu => hrd hsu _ hmem)

lemma runs_valueOf (hrd : sure → ∀ c ∈ t.children, c.readsOnly bound = true) :
    Runs sure s (fun T s' => T.Sound sure ∧ s'.Ready sure before bound)
      (valueOf t (check ·.tree)) := by
  unfold valueOf
  split
  · rename_i e he
    obtain ⟨hmem, hof⟩ := of_kid? he
    exact runs_expression h (.of_mem hmem) hof hs fun hsu => hrd hsu _ hmem
  · exact .pure ⟨.inl trivial, hs⟩

lemma runs_evaluate (hq : ∀ e ∈ production r, e.body.any (·.shows (.rule .expression)) = true)
    (hrd : sure → ∀ c ∈ t.children, c.readsOnly bound = true) :
    Readies sure s before bound (evaluate t (check ·.tree)) := by
  obtain ⟨e, he⟩ := h.exists_kid? hq
  exact (runs_kid h hs he hrd).bind fun _ _ hs => .pure hs.2

lemma runs_condition (st : Conditional)
    (hq : ∀ e ∈ production r, e.body.any (·.shows (.rule .expression)) = true)
    (hrd : sure → ∀ c ∈ t.children, c.readsOnly bound = true) :
    Readies sure s before bound (condition t (check ·.tree) st (t.kid? .expression)) := by
  obtain ⟨e, he⟩ := h.exists_kid? hq
  exact (runs_kid h hs he hrd).bind fun _ _ hs => .require hs.2 _ _ _

omit h in
lemma runs_child (hpts : PartsCarry sure t) {q : Rule} (hq : q.isStatement = true)
    (hno : q.mayDeclare = false) {k : t.Sub} (hmem : k.tree ∈ t.children)
    (hof : k.tree.isOf q = true) (hrd : sure → k.tree.readsOnly bound = true) :
    Readies sure s before bound (check k.tree) := by
  have hruns := hpts k.tree q (.of_mem hmem) k.2 hof (.inl hq) before bound s hs hrd
  rwa [declares_of_isOf hof hno, nil_append] at hruns

lemma runs_body (hpts : PartsCarry sure t)
    (hq : ∀ e ∈ production r, e.body.any (·.shows (.rule .block)) = true)
    (hrd : sure → ∀ k ∈ t.kids .block, k.tree.readsOnly bound = true) :
    Readies sure s before bound (do
      let _ ← visitPart (fun k : t.Sub => check k.tree) (t.kid? .block) : Check Unit) := by
  obtain ⟨k, hk⟩ := h.exists_kid? hq
  have hkid := mem_kids_of_kid? hk
  obtain ⟨hmem, hof⟩ := of_mem_kids hkid
  have hruns := runs_child hs hpts rfl rfl hmem hof fun hsu => hrd hsu k hkid
  have hvis : Readies sure s before bound
      (visitPart (fun k : t.Sub => check k.tree) (t.kid? .block)) := .visitPart hk hruns
  exact hvis.bind fun _ _ hs => .pure hs

lemma runs_loopBody (hpts : PartsCarry sure t)
    (hq : ∀ e ∈ production r, e.body.any (·.shows (.rule .block)) = true)
    (hrd : sure → ∀ k ∈ t.kids .block, k.tree.readsOnly bound = true) :
    Readies sure s before bound (loopBody t (check ·.tree)) := by
  have hloop := Runs.loop hs fun s hs => runs_body h hs hpts hq hrd
  simp only [bind_assoc, pure_bind] at hloop
  exact hloop

end Statement

/-- A value is assigned to a variable or to a field of an object. -/
lemma assignment_cases (h : Derived .assignment t) {visit : t.Sub → Check Ty} :
    ∃ x, t.tokenText? .identifier = some x ∧
      ((∃ e, t.kids .expression = [e] ∧ assignment t visit = assignVariable t visit) ∨
        ∃ a b, t.kids .expression = [a, b] ∧ assignment t visit = assignProperty t visit) := by
  obtain ⟨x, hx, -⟩ := h.exists_name (by decide)
  refine ⟨x, hx, ?_⟩
  unfold assignment
  rcases Tracks.children_assignment h with ⟨y, o, e, l, hchs, -, ho, he⟩ |
    ⟨a, o, y, q, b, l, hchs, -, ho, hy, ha, hb⟩
  · obtain ⟨ke, hkids, -⟩ := kids_eq_singleton (t := t) (r := .expression) (c := e)
      (by simp [hchs, he])
    exact .inl ⟨ke, hkids, if_pos (by simp [childText?, hchs, text, ho])⟩
  · obtain ⟨ka, kb, hkids, -⟩ := kids_eq_pair (t := t) (r := .expression) (c := a) (d := b)
      (by simp [hchs, ha, hb])
    exact .inr ⟨ka, kb, hkids, if_neg (by simp [childText?, hchs, text, ho])⟩

section Construct

variable (hpts : PartsCarry sure t) (hs : s.Ready sure before bound)
  (hrd : sure → readsOnlyAll bound t.children = true)

include hs hrd

lemma runs_constant (h : Derived .constantDeclaration t) :
    Readies sure s before t.declares (declareConstant t (check ·.tree)) := by
  obtain ⟨x, hx, hwr⟩ := h.exists_name (by decide)
  rw [declares_eq h (by simp) hx]
  have hval := runs_valueOf h hs fun hsu => readsOnly_child h (by decide) (hrd hsu)
  have hdef : ∀ (T : Ty) s, T.Sound sure → s.Ready sure before bound → Readies sure s before [x] (do
        define t.pos (.ofVariable x (t.markedType?.getD T) true true)
        return Ty.unknown : Check Ty) := by
    intro T s hT hs
    have hsym : (Symbol.ofVariable x (t.markedType?.getD T) true true).Sound sure := by
      refine Symbol.sound_ofVariable ?_ x _ _
      cases hmar : t.markedType? with
      | none => exact hT
      | some type => exact .inl (isProper_markedType? hmar)
    refine (Runs.define hs hwr hsym _).bind fun _ _ hs => .pure (hs.mono ?_)
    exact cons_subset_cons _ (nil_subset _)
  rw [declareConstant_eq]
  refine .need hx (hval.bind fun T s1 hs1 => ?_)
  split
  · rename_i type hmar
    have hT : type.Sound sure := .inl (isProper_markedType? hmar)
    exact .compare hs1.2 hT T _ _ fun s2 hs2 => hdef T s2 hs1.1 hs2
  · exact hdef T s1 hs1.1 hs1.2

omit hrd in
/-- A variable may be read in its own initial value, as its type has been found before. -/
lemma runs_variable (h : Derived .variableDeclaration t)
    (hrd : sure → readsOnlyAll (nameIn t.children ++ bound) t.children = true) :
    Readies sure s before t.declares (declareVariable t (check ·.tree)) := by
  obtain ⟨x, hx, hwr⟩ := h.exists_name (by decide)
  rw [nameIn_eq hx] at hrd
  rw [declares_eq h (by simp) hx]
  have hinit : ∀ e, initialValue? t = some e → sure → e.tree.readsOnly (x :: bound) = true := by
    intro e he hsu
    obtain ⟨i, hi, he⟩ := Option.bind_eq_some_iff.1 he
    obtain ⟨k, hk, rfl⟩ := Option.map_eq_some_iff.1 he
    obtain ⟨hmem, hof⟩ := of_kid? hi
    have hder : Derived .initializer i.tree := h.of_isOf (.of_mem hmem) hof
    have hall := readsOnly_child h (by decide) (hrd hsu) i.tree hmem
    refine readsOnly_child hder (by decide) ?_ k.tree (of_kid? hk).1
    obtain ⟨_, _, _, -, -, heq⟩ := hder
    rw [heq] at hall ⊢
    exact hall
  have hdef : ∀ {T : Ty} {s} init, T.IsProper → s.Ready sure before bound →
      Runs sure s (fun head s' => head.2.IsProper ∧ s'.Ready sure before (x :: bound)) (do
        define t.pos (.ofVariable x T false init)
        return (x, T)) := fun init hT hs =>
    (Runs.define hs hwr (Symbol.sound_ofVariable (.inl hT) x false init) _).bind
      fun _ _ hs => .pure ⟨hT, hs⟩
  have hhd : Runs sure s (fun head s' => head.2.IsProper ∧ s'.Ready sure before (x :: bound))
      (variableHead t (check ·.tree)) := by
    refine .need hx ?_
    split
    · rename_i hmar
      exact hdef _ (isProper_markedType? hmar) hs
    · rename_i e _ he
      obtain ⟨hin, hof⟩ := isExpression_initializer e he
      have hval : Answers False s (Ty.Sound False) (check e.tree) :=
        answers_of_derives hs.sound.weaken (h.of_isOf hin hof) rfl ⟨by decide, by decide⟩ False.elim
      exact (Runs.of_answers hs (.infer hval)).bind fun _ _ hs => hdef _ hs.1 hs.2
    · exact (Runs.complain hs _ _).bind fun _ _ hs => hdef (T := .null) _ trivial hs
  have hend : ∀ s, s.Ready sure before (x :: bound) →
      Readies sure s before [x] (pure Ty.unknown) := fun s hs =>
    .pure (hs.mono (cons_subset_cons _ (nil_subset _)))
  rw [declareVariable_eq]
  refine hhd.bind fun head s1 hs1 => ?_
  split
  · exact hend s1 hs1.2
  · rename_i e he
    obtain ⟨hin, hof⟩ := isExpression_initializer e he
    refine (runs_expression h hin hof hs1.2 (hinit e he)).bind fun _ s2 hs2 => ?_
    exact .compare hs2.2 (.inl hs1.1) _ _ _ hend

lemma runs_assignment (h : Derived .assignment t) :
    Readies sure s before bound (assignment t (check ·.tree)) := by
  have hch := fun hsu => readsOnly_child h (by decide) (hrd hsu)
  obtain ⟨x, hx, ⟨-, -, heq⟩ | ⟨a, b, hkids, heq⟩⟩ := assignment_cases h
  · rw [heq, assignVariable_eq hx]
    refine (Runs.of_answers hs (.resolve? x)).bind fun found s1 hs1 => ?_
    obtain ⟨hfd, hs1⟩ := hs1
    cases found with
    | none => exact (Runs.complain hs1 _ _).bind fun _ _ hs2 => .pure hs2
    | some sym =>
      have hsym : sym.type.Sound sure := (hs.sound.resolve? hfd.symm).2.type
      refine (Runs.require hs1 _ _ _).bind fun _ s2 hs2 => ?_
      refine (runs_valueOf h hs2 hch).bind fun T s3 hs3 => ?_
      refine .compare hs3.2 hsym T _ _ fun s4 hs4 => ?_
      exact (Runs.of_modify (hs4.markInitialized x)).bind fun _ _ hs5 => .pure hs5
  · have hvis : ∀ k ∈ t.kids .expression, ∀ s, s.Ready sure before bound →
        Runs sure s (fun T s' => T.Sound sure ∧ s'.Ready sure before bound) (check k.tree) := by
      intro k hk s hs
      obtain ⟨hmem, hof⟩ := of_mem_kids hk
      exact runs_expression h (.of_mem hmem) hof hs fun hsu => hch hsu _ hmem
    rw [heq, assignProperty_eq hx hkids]
    refine (hvis a (by simp [hkids]) s hs).bind fun object s1 hs1 => ?_
    refine (hvis b (by simp [hkids]) s1 hs1.2).bind fun found s2 hs2 => ?_
    exact (Runs.of_answers hs2.2 (answers_assignField hs2.2.sound _ _ _ _)).bind fun _ _ hs3 =>
      .pure hs3.2

omit hrd in
lemma runs_jump (j : Jump) : Readies sure s before bound (jump t j) :=
  .get ((Runs.require hs _ _ _).bind fun _ _ hs => .pure hs)

lemma runs_return (h : Derived .returnStatement t) :
    Readies sure s before bound (returnStatement t (check ·.tree)) := by
  rw [returnStatement_eq]
  refine .get ?_
  split
  · exact (Runs.complain hs _ _).bind fun _ _ hs => .pure hs
  · rename_i f hf
    have hval := runs_valueOf h hs fun hsu => readsOnly_child h (by decide) (hrd hsu)
    refine hval.bind fun T s1 hs1 => ?_
    exact .compare hs1.2 (hs.sound.function f hf).type T _ _ fun _ hs2 => .pure hs2

lemma runs_switch (h : Derived .switchStatement t) :
    Readies sure s before bound (switchStatement t (check ·.tree)) := by
  have hch := fun hsu => readsOnly_child h (by decide) (hrd hsu)
  obtain ⟨e, he⟩ := h.exists_kid? (q := .expression) (by decide)
  refine (runs_kid h hs he hch).bind fun T s1 hs1 => ?_
  refine (Runs.require hs1.2 _ _ _).bind fun _ s2 hs2 => ?_
  have hcase : ∀ c ∈ t.kids .switchCase, ∀ e, c.tree.kid? .expression = some e →
      e.tree.Within t ∧ e.tree.isOf .expression = true ∧
        (sure → e.tree.readsOnly bound = true) := by
    intro c hc e he
    obtain ⟨hmem, hof⟩ := of_mem_kids hc
    obtain ⟨hemem, heof⟩ := of_kid? he
    refine ⟨(Within.of_mem hemem).trans (.of_mem hmem), heof, fun hsu => ?_⟩
    refine readsOnly_of_readsOf ?_ hemem heof rfl
    have hall := hch hsu c.tree hmem
    obtain ⟨_, _, _, -, -, heq⟩ := h.of_isOf (.of_mem hmem) hof
    rw [heq] at hall ⊢
    exact hall
  refine (Runs.forIn (I := fun _ s' => s'.Ready sure before bound) (fun c cs s hc hs => ?_)
    hs2).bind fun _ _ hs => .pure hs
  split
  · exact .pure ⟨rfl, hs⟩
  · rename_i e he
    obtain ⟨hin, hof, hrs⟩ := hcase c hc e he
    refine (runs_expression h hin hof hs hrs).bind fun T' s3 hs3 => ?_
    exact .compare hs3.2 hs1.1 T' _ _ fun _ hs4 => .pure ⟨rfl, hs4⟩

include hpts

lemma runs_if (h : Derived .ifStatement t) :
    Readies sure s before bound (ifStatement t (check ·.tree)) := by
  have hch := fun hsu => readsOnly_child h (by decide) (hrd hsu)
  have hblk : ∀ k ∈ t.kids .block, ∀ s, s.Ready sure before bound →
      Readies sure s before bound (check k.tree) := by
    intro k hk s hs
    obtain ⟨hmem, hof⟩ := of_mem_kids hk
    exact runs_child hs hpts rfl rfl hmem hof fun hsu => hch hsu _ hmem
  obtain ⟨b, hb⟩ := h.exists_kid? (q := .block) (by decide)
  unfold ifStatement
  refine (runs_condition h hs .if (by decide) hch).bind fun _ s1 hs1 => ?_
  have hfst : t.kidAt? .block 0 = some b := by rw [kidAt?, ← head?_eq_getElem?]; exact hb
  refine (Runs.visitPart hfst (hblk b (mem_kids_of_kid? hb) s1 hs1)).bind
    fun _ s2 hs2 => ?_
  split
  · rename_i b' hb'
    exact (hblk b' (mem_of_getElem? hb') s2 hs2).bind fun _ _ hs3 => .pure hs3
  · exact .pure hs2

lemma runs_while (h : Derived .whileStatement t) :
    Readies sure s before bound (whileStatement t (check ·.tree)) := by
  have hch := fun hsu => readsOnly_child h (by decide) (hrd hsu)
  refine (runs_condition h hs .while (by decide) hch).bind fun _ s1 hs1 => ?_
  exact (runs_loopBody h hs1 hpts (by decide) fun hsu k hk =>
    hch hsu _ (of_mem_kids hk).1).bind fun _ _ hs2 => .pure hs2

lemma runs_doWhile (h : Derived .doWhileStatement t) :
    Readies sure s before bound (doWhileStatement t (check ·.tree)) := by
  have hch := fun hsu => readsOnly_child h (by decide) (hrd hsu)
  refine (runs_loopBody h hs hpts (by decide) fun hsu k hk =>
    hch hsu _ (of_mem_kids hk).1).bind fun _ s1 hs1 => ?_
  exact (runs_condition h hs1 .doWhile (by decide) hch).bind fun _ _ hs2 => .pure hs2

omit hrd

lemma runs_forStart {first : t.Sub} (hfst : t.subs[2]? = some first)
    (hst : (∃ tok, first.tree = .leaf tok) ∨ ∃ r : Rule, r.isStatement = true ∧ r ≠ .block ∧
      first.tree.isOf r = true) (hrd : sure → first.tree.readsOnly bound = true) :
    Readies sure s before (first.tree.declares ++ bound) (forStart t (check ·.tree)) := by
  have hmem : first.tree ∈ t.children :=
    mem_children_of_mem_subs (mem_of_getElem? hfst)
  rw [forStart, hfst]
  rcases hst with ⟨tok, htok⟩ | ⟨r, hr, -, hof⟩
  · dsimp only
    rw [htok]
    exact (Runs.of_answers hs (answers_token hs.sound tok)).bind fun _ _ hs => .pure hs.2
  · exact (hpts first.tree r (.of_mem hmem) first.2 hof (.inl hr) before bound s hs hrd).bind
      fun _ _ hs => .pure hs

omit hpts in
lemma runs_forHeader (h : Derived .forStatement t)
    (hrd : sure → ∀ k ∈ t.kids .expression, k.tree.readsOnly bound = true) :
    Readies sure s before bound (forHeader t (check ·.tree)) := by
  have hvis : ∀ k ∈ t.kids .expression, ∀ s, s.Ready sure before bound →
      Runs sure s (fun T s' => T.Sound sure ∧ s'.Ready sure before bound) (check k.tree) := by
    intro k hk s hs
    obtain ⟨hmem, hof⟩ := of_mem_kids hk
    exact runs_expression h (.of_mem hmem) hof hs fun hsu => hrd hsu k hk
  unfold forHeader
  split
  · exact .pure hs
  · rename_i e es hes
    have hcond : Readies sure s before bound (condition t (check ·.tree) .for (some e)) :=
      (Runs.visitPart rfl (hvis e (by simp [hes]) s hs)).bind fun _ _ hs => .require hs.2 _ _ _
    refine hcond.bind fun _ s1 hs1 => ?_
    split
    · exact (hvis _ (by simp [hes]) s1 hs1).bind fun _ _ hs => .pure hs.2
    · exact .pure hs1

/-- What a `for` starts with may declare a name for the rest of it. -/
lemma runs_for (h : Derived .forStatement t) (hrd : sure → readsOnlyAll bound t.children = true) :
    Readies sure s before t.declares (forStatement t (check ·.tree)) := by
  obtain ⟨k, o, start, rest, hchs, hst, hrest⟩ := Tracks.children_for h
  have hdec : t.declares = start.declares := by
    obtain ⟨_, _, _, -, -, rfl⟩ := id h
    rw [children_node] at hchs
    rw [hchs, declares]
  have hrs : sure → start.readsOnly bound = true ∧
      ∀ c ∈ rest, c.readsOnly (start.declares ++ bound) = true := by
    intro hsu
    have hall := hrd hsu
    rw [hchs] at hall
    simp only [readsOnlyAll, readsOnly, declares, nil_append, Bool.true_and,
      Bool.and_eq_true] at hall
    refine ⟨hall.1, readsOnly_of_mem hall.2 fun c hc => ?_⟩
    rcases hrest c hc with ⟨tok, rfl⟩ | hof | hof
    · rfl
    · exact declares_of_isOf hof rfl
    · exact declares_of_isOf hof rfl
  -- Neither a condition nor the body stands at the start.
  have hkid : ∀ q, q = .expression ∨ q = .block → ∀ k ∈ t.kids q, k.tree ∈ rest := by
    intro q hq k hk
    have hmem : k.tree ∈ t.children.filter (·.isOf q) :=
      kids_map_tree t q ▸ mem_map_of_mem hk
    have hnot : start.isOf q = false := by
      rcases hst with ⟨tok, rfl⟩ | ⟨r, hr, hblk, hof⟩
      · rfl
      · refine isOf_eq_false hof ?_
        rcases hq with rfl | rfl
        · rintro rfl
          cases hr
        · exact hblk
    rw [hchs, filter_cons_of_neg Bool.false_ne_true,
      filter_cons_of_neg Bool.false_ne_true, filter_cons_of_neg (by simp [hnot])] at hmem
    exact (mem_filter.1 hmem).1
  obtain ⟨first, hfst, rfl⟩ := exists_sub (t := t) (i := 2) (by rw [hchs]; rfl)
  rw [hdec, forStatement_eq]
  refine (Runs.loop hs fun s hs => ?_).bind fun _ _ hs =>
    .pure (hs.mono (subset_append_left _ bound))
  refine (runs_forStart hpts hs hfst hst fun hsu => (hrs hsu).1).bind
    fun _ s1 hs1 => ?_
  refine (runs_forHeader hs1 h fun hsu k hk => ?_).bind fun _ s2 hs2 => ?_
  · exact (hrs hsu).2 _ (hkid _ (.inl rfl) k hk)
  · exact runs_body h hs2 hpts (by decide) fun hsu k hk =>
      (hrs hsu).2 _ (hkid _ (.inr rfl) k hk)

lemma runs_foreach (h : Derived .foreachStatement t)
    (hrd : sure → (readsOf t.children).all (bound.contains ·) = true ∧
      readsOnlyAll (nameIn t.children ++ bound) t.children = true) :
    Readies sure s before [] (foreachStatement t (check ·.tree)) := by
  obtain ⟨x, hx, hwr⟩ := h.exists_name (by decide)
  rw [nameIn_eq hx] at hrd
  obtain ⟨e, he⟩ := h.exists_kid? (q := .expression) (by decide)
  obtain ⟨hmem, hof⟩ := of_kid? he
  have hex := runs_expression h (.of_mem hmem) hof hs fun hsu =>
    readsOnly_of_readsOf (hrd hsu).1 hmem hof rfl
  have hrest : ∀ (elem : Ty) s, elem.Sound sure → s.Ready sure before bound →
      Readies sure s before [] (do
        pushScope
        define t.pos (.ofVariable (← tokenText t .identifier) elem false true)
        loopBody t (check ·.tree)
        popScope
        return Ty.unknown) := by
    intro elem s helem hs
    have hsym := Symbol.sound_ofVariable helem x false true
    have hbd : ∀ s, s.Ready sure before bound → Readies sure s before (x :: bound) (do
          define t.pos (.ofVariable (← tokenText t .identifier) elem false true)
          loopBody t (check ·.tree)) := fun s hs =>
      .need hx ((Runs.define hs hwr hsym _).bind fun _ s1 hs1 =>
        runs_loopBody h hs1 hpts (by decide) fun hsu k hk =>
          readsOnly_child h (by decide) (hrd hsu).2 _ (of_mem_kids hk).1)
    have hsc : Readies sure s before []
        (_ >>= fun _ => pure Ty.unknown) := (Runs.scope hs hbd).bind fun _ _ hs => .pure hs
    simp only [bind_assoc] at hsc
    exact hsc
  unfold foreachStatement
  refine (Runs.visitPart he hex).bind fun T s1 hs1 => ?_
  split
  · rename_i elem
    refine hrest elem s1 (.inl ?_) hs1.2
    exact hs1.1.resolve_right fun hno => nomatch hno.1
  · exact (Runs.complain hs1.2 _ _).bind fun _ s2 hs2 => hrest .null s2 (.inl trivial) hs2

/-! ### Lists of statements -/

variable {ks : List t.Sub} {r : Rule}

lemma runs_next {k : t.Sub} (hk : k ∈ t.kids .statement)
    (hrd : sure → readsOnlyAll bound ((k :: ks).map Sub.tree) = true) :
    Runs sure s (fun _ s' => ∃ bound', s'.Ready sure before bound' ∧
      (sure → readsOnlyAll bound' (ks.map Sub.tree) = true)) (check k.tree) := by
  obtain ⟨hmem, hof⟩ := of_mem_kids hk
  simp only [map_cons, readsOnlyAll, Bool.and_eq_true] at hrd
  refine (hpts k.tree .statement (.of_mem hmem) k.2 hof (.inl rfl) before bound s hs fun hsu =>
    (hrd hsu).1).imp fun _ s' _ hs' => ⟨_, hs', fun hsu => (hrd hsu).2⟩

lemma runs_statements (dead : Bool) (hks : ∀ k ∈ ks, k ∈ t.kids .statement)
    (hrd : sure → readsOnlyAll bound (ks.map Sub.tree) = true) :
    Readies sure s before [] (statements t (check ·.tree) dead ks) := by
  induction ks generalizing dead bound s with
  | nil => exact .pure (hs.mono (nil_subset _))
  | cons k ks ih =>
    rw [forall_mem_cons] at hks
    rw [statements]
    refine (Runs.require hs _ _ _).bind fun _ s1 hs1 => ?_
    refine (runs_next hpts hs1 hks.1 hrd).bind ?_
    rintro _ s2 ⟨bound', hs2, hread'⟩
    exact ih hs2 _ hks.2 hread'

omit hpts hs in
lemma readsOnlyAll_kids (h : Derived r t) (hol : r.MentionsOnly fun q => q = .statement)
    (hrd : readsOnlyAll bound t.children = true) :
    readsOnlyAll bound ((t.kids .statement).map Sub.tree) = true := by
  rw [kids_map_tree]
  refine readsOnlyAll_filter hrd fun c hc hno => ?_
  rcases h.leaf_or_mentioned hc with ⟨tok, rfl⟩ | ⟨q, hof, e, he, hment⟩
  · rfl
  · rw [hol e he q (Rule.mem_all q) hment, hno] at hof
    cases hof

lemma runs_block (h : Derived .block t) (hrd : sure → readsOnlyAll bound t.children = true) :
    Readies sure s before [] (block t (check ·.tree)) := by
  have hsc : Readies sure s before [] (_ >>= fun _ => pure Ty.unknown) :=
    (Runs.scope hs fun s hs => runs_statements hpts hs false (fun _ hk => hk) fun hsu =>
      readsOnlyAll_kids h (by decide) (hrd hsu)).bind fun _ _ hs => .pure hs
  simp only [bind_assoc] at hsc
  exact hsc

lemma runs_program (h : Derived .program t) (hrd : sure → readsOnlyAll bound t.children = true) :
    Readies sure s before [] (program t (check ·.tree)) := by
  refine (Runs.forIn (I := fun ks s => ∃ bound, s.Ready sure before bound ∧
    (sure → readsOnlyAll bound (ks.map Sub.tree) = true)) ?_ ⟨bound, hs, fun hsu =>
      readsOnlyAll_kids h (by decide) (hrd hsu)⟩).bind ?_
  · rintro k ks s hk ⟨bound, hs, hrd⟩
    exact (runs_next hpts hs hk hrd).bind fun _ _ hs => .pure ⟨rfl, hs⟩
  · rintro _ s' ⟨bound, hs, -⟩
    exact .pure (hs.mono (nil_subset _))

/-- A node whose children are visited in order. -/
lemma runs_visitAll (h : Derived r t)
    (hol : r.MentionsOnly fun q => q.isStatement = true ∨ q = .switchStatement)
    (hrd : sure → readsOnlyAll bound t.children = true) :
    Readies sure s before (t.children.flatMap declares)
      (visitAll fun k : t.Sub => check k.tree) := by
  have hloop : ∀ (cs : List Tree) (bound : List String) (found : Ty) (s : Checker),
      (∀ c ∈ cs, c ∈ t.children) → s.Ready sure before bound →
      (sure → readsOnlyAll bound cs = true) →
      Readies sure s before (cs.flatMap declares ++ bound) (cs.foldlM (fun found c => do
          let type ← check c
          return if type = .unknown then found else type) found) := by
    intro cs
    induction cs with
    | nil => exact fun bound found s _ hs _ => .pure hs
    | cons c cs ih =>
      intro bound found s hcs hs hrd
      rw [forall_mem_cons] at hcs
      simp only [readsOnlyAll, Bool.and_eq_true] at hrd
      rw [foldlM_cons, bind_assoc]
      have hc : Readies sure s before (c.declares ++ bound) (check c) := by
        rcases h.leaf_or_mentioned hcs.1 with ⟨tok, rfl⟩ | ⟨q, hof, e, he, hment⟩
        · exact (Runs.of_answers hs (answers_token hs.sound tok)).imp fun _ _ _ hs => hs.2
        · exact hpts c q (.of_mem hcs.1) (sizeOf_child_lt hcs.1) hof
            (hol e he q (Rule.mem_all q) hment) before bound s hs fun hsu => (hrd hsu).1
      refine hc.bind fun T s1 hs1 => ?_
      rw [pure_bind]
      refine (ih _ _ s1 hcs.2 hs1 fun hsu => (hrd hsu).2).imp fun _ _ _ hs => hs.mono ?_
      intro x hx
      simp only [flatMap_cons, mem_append] at hx ⊢
      tauto
  rw [visitAll_check]
  exact (hloop _ bound _ s (fun _ hc => hc) hs hrd).imp fun _ _ _ hs =>
    hs.mono (subset_append_left _ _)

/-! ### Functions -/

omit hpts in
/-- The parameters of a function have names and types. -/
lemma runs_parameters {f : Tree} (h : Derived .functionDeclaration f) :
    Runs sure s (fun params s' => (∀ p ∈ params, IsWritable p.1 ∧ p.2.IsProper) ∧
      params.map Prod.fst = paramsIn f.children ∧ s'.Ready sure before bound) (parameters f) := by
  have hans : Answers sure s (fun params => ∀ p ∈ params, IsWritable p.1 ∧ p.2.IsProper)
      (parameters f) := by
    unfold parameters
    split
    · exact .pure fun _ hp => nomatch hp
    · rename_i ps hps
      refine .mapM fun p hp => ?_
      have hder : Derived .parameter p.tree :=
        h.of_isOf ((Within.of_kids hp).trans (.of_kid? hps))
          (of_mem_kids hp).2
      obtain ⟨x, hx, hwr⟩ := hder.exists_name (by decide)
      exact .need hx (.pure ⟨hwr, isProper_typeOf? _ _⟩)
  exact (Runs.of_answers hs hans).imp fun params s' hgv hpars =>
    ⟨hpars.1, (Tracks.gives_parameters hgv).2, hpars.2⟩

omit hpts in
/-- The body of a function is read with its parameters declared. -/
lemma runs_functionBody (p : Pos) {f : Symbol} {params : List (String × Ty)} {body : Check Unit}
    (hf : f.Sound sure) (hpars : ∀ q ∈ params, IsWritable q.1 ∧ q.2.IsProper)
    (hbd : ∀ s, s.Ready sure before (params.map Prod.fst ++ bound) →
      Readies sure s before [] body) : Readies sure s before [] (functionBody p f params body) := by
  have hdef : Readies sure s before (params.map Prod.fst ++ bound)
      (forIn params PUnit.unit fun q _ => do
        define p (.ofParameter q.1 q.2)
        return ForInStep.yield PUnit.unit) := by
    -- All names are declared already or still to come.
    refine (Runs.forIn (I := fun rest s => ∃ names, s.Ready sure before names ∧
      ∀ x ∈ params.map Prod.fst ++ bound, x ∈ names ∨ x ∈ rest.map Prod.fst) ?_
      ⟨bound, hs, fun x hx => (mem_append.1 hx).symm⟩).imp ?_
    · rintro q rest s hq ⟨names, hs, hall⟩
      have hsym : (Symbol.ofParameter q.1 q.2).Sound sure :=
        ⟨.inl (hpars q hq).2, fun _ hp => nomatch hp⟩
      refine (Runs.define hs (hpars q hq).1 hsym p).bind fun _ s' hs' => ?_
      refine .pure ⟨rfl, _, hs', fun x hx => ?_⟩
      rcases hall x hx with hx | hx
      · exact .inl (.tail _ hx)
      · rcases mem_cons.1 hx with rfl | hx
        · exact .inl (.head _)
        · exact .inr hx
    · rintro _ s' - ⟨names, hs, hall⟩
      exact hs.mono fun x hx => (hall x hx).resolve_right not_mem_nil
  refine hdef.bind fun _ s1 hs1 => .get ?_
  have hset : Readies sure s1 before (params.map Prod.fst ++ bound)
      (modify fun s => { s with function := some f }) :=
    .of_modify (hs1.setFunction fun g hg => Option.some.inj hg ▸ hf)
  refine hset.bind fun _ s2 hs2 => (hbd s2 hs2).bind fun _ s3 hs3 => ?_
  exact .of_modify (hs3.setFunction hs1.sound.function)

lemma runs_function (h : Derived .functionDeclaration t) (hrd : sure → readsOnlyAll
      (paramsIn t.children ++ nameIn t.children ++ bound) t.children = true) :
    Readies sure s before t.declares (declareFunction t (check ·.tree)) := by
  obtain ⟨x, hx, hwr⟩ := h.exists_name (by decide)
  rw [nameIn_eq hx] at hrd
  rw [declares_eq h (by simp) hx]
  unfold declareFunction
  refine .need hx ((runs_parameters hs h).bind ?_)
  rintro params s1 ⟨hpars, hnms, hs1⟩
  rw [← hnms, append_assoc] at hrd
  have hsym : (Symbol.ofFunction x ((t.typeOf? .typeExpr).getD .null) params).Sound sure :=
    ⟨.inl (isProper_typeOf? _ _), hpars⟩
  dsimp only
  refine (Runs.define hs1 hwr hsym _).bind fun _ s2 hs2 => ?_
  have hblk : Restores (do
      let _ ← visitPart (fun k : t.Sub => check k.tree) (t.kid? .block) : Check Unit) :=
    restores_steps.bind (restores_steps.visitKid (fun k hk => restores_of_derives h hk) _) fun _ =>
      restores_steps.pure _
  have hbd : ∀ s, s.Ready sure before (params.map Prod.fst ++ ([x] ++ bound)) →
      Readies sure s before [] (do
        let _ ← visitPart (fun k : t.Sub => check k.tree) (t.kid? .block) : Check Unit) :=
    fun s hs => (runs_body h hs hpts (by decide) fun hsu k hk =>
      readsOnly_child h (by decide) (hrd hsu) _
        (of_mem_kids hk).1).imp fun _ _ _ hs => hs.mono (nil_subset _)
  -- The name of the function is still there behind its body.
  have hsc := (Runs.scope hs2 fun s hs => runs_functionBody hs t.pos hsym hpars hbd).imp
    fun _ _ hgv hs => hs2.of_same
      ((Restores.scope (.functionBody t.pos _ params hblk)) _ _ _ hgv).scopes hs
  have hall : Readies sure s2 before [x] (_ >>= fun _ => pure Ty.unknown) :=
    hsc.bind fun _ _ hs => .pure (hs.mono (cons_subset_cons x (nil_subset bound)))
  simp only [bind_assoc] at hall
  exact hall

end Construct

end Check

end Compiscript
