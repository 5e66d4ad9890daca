import Compiscript.Proofs.Codegen.Writes

/-!
# Code With a Listing

A listing has a line for each instruction, and a line is made of texts. The generator
hands texts to all instructions but one: the one that begins a function holds a number.

## Theorems

* `Gen.listing_fails_iff_hasFunction`: Code has a listing if and only if there is no
  function in the program.
-/

namespace Compiscript

open List hiding modify

/-! ### Lines -/

lemma Op.isText_operand {op : Op} (h : op.isPlain = true) : op.operand.isText = true := by
  cases op with
  | other name => exact h
  | cmp c => cases c <;> rfl
  | _ => rfl

namespace Instr

lemma exists_texts {os : List Operand} (h : ∀ o ∈ os, o.isText = true) (place : Nat) :
    ∃ ss, texts place os = .ok ss := by
  induction os generalizing place with
  | nil => exact ⟨[], rfl⟩
  | cons o os ih =>
    obtain ⟨ho, hos⟩ := forall_mem_cons.1 h
    obtain ⟨ss, hss⟩ := ih hos (place + 1)
    cases o with
    | text s => exact ⟨s :: ss, by rw [texts, hss]; rfl⟩
    | none | int | flag => cases ho

/-- An instruction of texts has a line. -/
lemma exists_line {op : Op} (hop : op.operand.isText = true) (a1 a2 res : Operand)
    [h1 : a1.Shown] [h2 : a2.Shown] [hres : res.Shown] : ∃ s, (of op a1 a2 res).line = .ok s := by
  have hshown : ∀ o ∈ [res, a1, a2], o = .none ∨ o.isText = true := by
    simp only [forall_mem_cons]
    exact ⟨hres.eq_none_or_isText, h1.eq_none_or_isText, h2.eq_none_or_isText,
      forall_mem_nil _⟩
  have hps : ∀ o ∈ (of op a1 a2 res).parts, o.isText = true := by
    refine forall_mem_cons.2 ⟨hop, fun o ho => ?_⟩
    obtain ⟨hmem, hso⟩ := mem_filter.1 ho
    rcases hshown o hmem with rfl | htx
    · cases hso
    · exact htx
  obtain ⟨ss, hss⟩ := exists_texts hps 0
  exact ⟨_, by rw [line, hss]; rfl⟩

end Instr

namespace Tac

variable {code : List Instr}

/-- If all lines that go wrong do so in one way, the lines together go wrong in that way
    or all of them are there. -/
lemma lines_cases {e : NotText} (h : ∀ i ∈ code, (∃ s, i.line = .ok s) ∨ i.line = .error e) :
    ((∀ i ∈ code, ∃ s, i.line = .ok s) ∧
      ∃ ls, Forall₂ (fun i s => i.line = .ok s) code ls ∧ lines code = .ok ls) ∨
    (∃ i ∈ code, i.line = .error e) ∧ lines code = .error e := by
  induction code with
  | nil => exact .inl ⟨forall_mem_nil _, [], .nil, rfl⟩
  | cons i code ih =>
    obtain ⟨hi, hrs⟩ := forall_mem_cons.1 h
    rw [lines, mapM_cons]
    rcases hi with ⟨s, hs⟩ | hi
    · rw [hs]
      rcases ih hrs with ⟨hok, ls, hall, hls⟩ | ⟨⟨j, hj, hline⟩, hls⟩ <;> rw [lines] at hls <;>
        rw [hls]
      · exact .inl ⟨forall_mem_cons.2 ⟨⟨s, hs⟩, hok⟩, s :: ls, .cons hs hall, rfl⟩
      · exact .inr ⟨⟨j, .tail _ hj, hline⟩, rfl⟩
    · rw [hi]
      exact .inr ⟨⟨i, .head _, hi⟩, rfl⟩

end Tac

/-- There is a function or a method somewhere in a tree. -/
def Tree.HasFunction (t : Tree) : Prop :=
  ∃ d : Tree, d.Within t ∧ d.isOf .functionDeclaration = true

namespace Gen

/-! ### What is added to the code -/

/-- All that a step adds to the code has a line, but for what begins a function, which is
    added under a condition. -/
def Lists (f : Prop) {α : Type} (x : Gen α) : Prop :=
  ∀ g a g', Gives x g a g' → ∀ i ∈ g'.code,
    i ∈ g.code ∨ (∃ s, i.line = .ok s) ∨ f ∧ i.line = .error ⟨1, .int 0⟩

namespace Lists

variable {f : Prop} {α β : Type} {x : Gen α}

lemma of_code (h : ∀ g, ∃ a g', Gives x g a g' ∧ g'.code = g.code) : Lists f x := by
  intro g a g' hgv i hi
  obtain ⟨b, g1, hgives1, hcode⟩ := h g
  obtain ⟨-, rfl⟩ := hgv.unique hgives1
  exact .inl (hcode ▸ hi)

lemma of_silent (h : Silent x) : Lists f x := of_code fun g => by
  obtain ⟨a, g', hgv, hcode, -⟩ := h g
  exact ⟨a, g', hgv, hcode⟩

lemma bind {k : α → Gen β} (hx : Lists f x) (hk : ∀ a, Lists f (k a)) : Lists f (x >>= k) := by
  intro g b g'' hgv i hi
  obtain ⟨a, g', hgv, hgv'⟩ := hgv.of_bind
  exact (hk a g' b g'' hgv' i hi).elim (hx g a g' hgv i) .inr

lemma emit {op : Op} {a1 a2 res : Operand} (h : (∃ s, (Instr.of op a1 a2 res).line = .ok s) ∨
      f ∧ (Instr.of op a1 a2 res).line = .error ⟨1, .int 0⟩) : Lists f (Gen.emit op a1 a2 res) := by
  intro g a g' hgv i hi
  obtain ⟨-, rfl⟩ := hgv.unique (rfl : Gives (Gen.emit op a1 a2 res) g () _)
  rcases mem_append.1 hi with hi | hi
  · exact .inl hi
  · rw [mem_singleton.1 hi]
    exact .inr h

lemma emit_shown {op : Op} (hop : op.operand.isText = true) (a1 a2 res : Operand)
    [a1.Shown] [a2.Shown] [res.Shown] : Lists f (Gen.emit op a1 a2 res) :=
  emit (.inl (Instr.exists_line hop a1 a2 res))

variable (f)

lemma labelling : Labelling fun (_ : List Tree) {α} (x : Gen α) => Lists f x where
  pure a := of_silent (.pure a)
  seq := bind
  countLabel := of_code fun g => ⟨_, { g with labels := g.labels + 1 }, rfl, rfl⟩
  freshTemp := of_code fun g => ⟨_, { g with temps := g.temps.get.2 }, rfl, rfl⟩
  release v := of_code fun g =>
    ⟨(), { g with temps := g.temps.giveBack v }, by cases v <;> rfl, rfl⟩
  move _ _ := emit_shown rfl _ _ _
  test h _ _ _ := by rcases h with rfl | rfl <;> exact emit_shown rfl _ _ _
  jump _ := emit_shown rfl _ _ _
  label _ := emit_shown rfl _ _ _

lemma outer : Outer Set.univ fun _ {α : Type} (x : Gen α) => Lists f x := by
  have hqu := Silent.quietOuter (labelling f).toSequencing
    (fun h => bind (of_silent .get) h) of_silent
  exact { (labelling f).steps hqu.toQuiet fun h _ _ _ =>
    emit_shown (Op.isText_operand h) _ _ _, hqu with
    mark := fun _ => emit_shown rfl _ _ _
    leave := fun _ => emit_shown rfl _ _ _ }

lemma calling : Calling fun (_ : List Piece) {α} (x : Gen α) => Lists f x where
  toLinking := (outer f).linking
  param _ := emit_shown rfl _ _ _
  call _ _ _ _ := emit_shown rfl _ _ _

end Lists

lemma lists_generate {t : Tree} (hc : t.Everywhere Complete) : Lists t.HasFunction (generate t) :=
  (Lists.outer _).generate t hc (fun _ _ _ _ _ => trivial)
    (fun d hd hof => .emit (.inr ⟨⟨d, hd, hof⟩, rfl⟩))
    (fun _ hd _ ha hv => (Lists.calling _).chain hv (hc.sub hd) ha)
    fun _ _ _ hx hv => (Lists.outer _).newObject (Lists.calling _) hv hx

/-! ### Functions are in reach -/

section Reach

variable {P : Token → Prop} {r q : Rule} {t c d : Tree}

/-- What may hold functions is visited when what is around it may hold functions. -/
lemma mem_parts_of_mayDeclare (h : Derives P r t) (hr : mayDeclare r = true)
    (hc : c ∈ t.children) (hof : c.isOf q = true) (hq : mayDeclare q = true) : c ∈ parts t := by
  obtain ⟨e, start, cs, he, hcs, rfl⟩ := h
  have hment := hcs.mentions_of_mem hc hof
  have hevery : ∀ {q'}, q = q' → c ∈ (Tree.node ⟨r, e.label⟩ start cs).every q' :=
    fun hqq => mem_filter.2 ⟨hc, hqq ▸ hof⟩
  -- Where only the first ones are visited, there are no more.
  have htake : ∀ {q'} (n : Nat), q = q' → Item.mostIn q' e.body ≤ 2 → Item.mostIn q' e.body ≤ n →
      c ∈ ((Tree.node ⟨r, e.label⟩ start cs).every q').take n := fun n hqq hfew hn => by
    rw [Tree.every, Tree.children_node, take_of_length_le ((hcs.length_filter_le hfew).trans hn)]
    exact hevery hqq
  have hol : ∀ {q' : Rule}, (r.MentionsOnly fun p => mayDeclare p = true → p = q') → q = q' :=
    fun hol => hol e he q (Rule.mem_all q) hment hq
  cases r with try cases mem_singleton.1 he
  | program =>
    have hmem := @hevery .statement (hol (by decide))
    cases hdec : isDeclaration c with
    | true => exact mem_append_right _ (mem_filter.2 ⟨hmem, hdec⟩)
    | false => exact mem_append_left _ (mem_filter.2 ⟨hmem, by rw [hdec]; rfl⟩)
  | classDeclaration => exact hevery (hol (by decide))
  | functionDeclaration =>
    exact htake 1 (hol (by decide)) (by decide) (by decide)
  | whileStatement =>
    exact mem_append_right _ (htake 1 (hol (by decide)) (by decide) (by decide))
  | ifStatement =>
    exact mem_append_right _ (htake 2 (hol (by decide)) (by decide) (by decide))
  | statement | block | doWhileStatement | forStatement | foreachStatement | tryCatchStatement
    | switchStatement | switchCase | defaultCase | classMember =>
      rw [parts, Tree.tag?, label_eq_none hr _ he]
      exact hc
  | _ => cases hr

lemma mayDeclare_of_within (h : Derives P r t) (hd : d.Within t)
    (hof : d.isOf .functionDeclaration = true) : mayDeclare r = true := by
  by_contra hr
  have hpl := not_isOuter_of_derives h (Bool.eq_false_iff.2 hr) d hd
  simp [isOuter, hof] at hpl

/-- Every function is met. -/
lemma met_of_function (h : Derives P r t) (hd : d.Within t)
    (hof : d.isOf .functionDeclaration = true) : Met d t := by
  induction hd generalizing r with
  | refl => exact .here
  | @tail b t hd hb ih =>
    have hr := mayDeclare_of_within h (hd.tail hb) hof
    obtain ⟨e, start, cs, he, hcs, rfl⟩ := id h
    rcases hcs.derives_of_mem hb with ⟨tok, -, rfl⟩ | ⟨q, hq⟩
    · rcases Tree.within_iff.1 hd with rfl | ⟨_, hmem, -⟩
      · cases hof
      · cases hmem
    · have hofq : b.isOf q = true := by
        obtain ⟨e', start', cs', -, -, rfl⟩ := hq
        exact beq_self_eq_true _
      exact .part (mem_parts_of_mayDeclare h hr hb hofq (mayDeclare_of_within hq hd hof)) (ih hq)

end Reach

/-! ### The start of a function -/

variable {g g' : Generator}

lemma mem_code_of_openFunction {x : String} {ps : List Tree} {c : Option String}
    {entry exit : String} (h : Gives (openFunction x ps c entry exit) g () g') :
    Instr.of .enter (.int 0) .none .none ∈ g'.code := by
  have hla : ∀ {k : Generator}, Gives (do
      modify fun s => { s with frames := s.frames.ensure x }
      placeParameters x 0 ps
      emit .enter (.int 0) .none .none : Gen Unit) k () g' →
      Instr.of .enter (.int 0) .none .none ∈ g'.code := fun h => by
    obtain ⟨_, _, -, h⟩ := h.of_bind
    obtain ⟨_, k, -, h⟩ := h.of_bind
    obtain ⟨-, rfl⟩ := h.unique (rfl : Gives (emit .enter (.int 0) .none .none) k () _)
    exact mem_append_right _ (.head _)
  rw [openFunction] at h
  obtain ⟨_, _, -, h⟩ := h.of_bind
  obtain ⟨_, _, -, h⟩ := h.of_bind
  cases c with
  | none => exact hla h
  | some c =>
    obtain ⟨_, _, -, h⟩ := h.of_bind
    exact hla h

/-- The code of a function holds the instruction that begins it. -/
lemma mem_code_of_function {params : Set String} {d : Tree} (hc : d.Everywhere Complete)
    (hp : d.Everywhere (ParameterIn params)) (hof : d.isOf .functionDeclaration = true)
    {v : Value} (hgv : Gives (generate d) g v g') :
    Instr.of .enter (.int 0) .none .none ∈ g'.code := by
  have hI := (Visits.uniform : Uniform params _).invariant
  obtain ⟨l, p, cs, rfl⟩ := Tree.exists_of_isOf hof
  obtain ⟨x, hx⟩ := hc.here.exists_text rfl (mem_required_of_rule (.head _))
  rw [generate_eq] at hgv
  change Gives (declareFunction _ _) g v g' at hgv
  rw [declareFunction_eq hx] at hgv
  obtain ⟨_, _, -, hgv⟩ := hgv.of_bind
  obtain ⟨g1, _, -, hgv⟩ := hgv.of_bind
  obtain ⟨_, g2, hopen, hgv⟩ := hgv.of_bind
  -- Code is only added after this.
  obtain ⟨_, g3, hbd, hgv⟩ := hgv.of_bind
  obtain ⟨_, g4, hclose, hgv⟩ := hgv.of_bind
  obtain ⟨-, rfl⟩ := hgv.unique (.pure _ _)
  have hlat := ((hI.functionBody fun c hin =>
    visits_self (hc.sub hin) (hp.sub hin)) _ _ _ hbd).1.trans
      (hI.closeFunction (isLabelName_functionLabels g1.inClass x).2 _ _ _ hclose).1
  exact hlat.code.subset (mem_code_of_openFunction hopen)

/-- The code of a text without syntax errors has no listing if and only if there is a function or a
    method anywhere in it, whatever is known about its symbols. What is in the way then is a number,
    next to the name of an operation. Otherwise the listing has the line of each instruction. -/
theorem listing_fails_iff_hasFunction (source : String) (symbols : Option (Table String Symbol))
    (hparse : (parse source).errors = []) :
    ∃ v g, Generator.run (parse source).tree (.start symbols) = (.ok v, g) ∧
      (Tac.listing ⟨g.code, g.labels⟩ = .error ⟨1, .int 0⟩ ↔ (parse source).tree.HasFunction) ∧
      (¬(parse source).tree.HasFunction → ∃ ls, List.Forall₂ (fun i s => i.line = .ok s) g.code ls ∧
          Tac.listing ⟨g.code, g.labels⟩ = .ok ("\n".intercalate ls)) := by
  have hder := derives_of_parse hparse
  have hc := complete_of_derives hder
  obtain ⟨v, g, hrun, hbet⟩ := exists_run_between symbols hparse
  have hlists : ∀ i ∈ g.code, (∃ s, i.line = .ok s) ∨
      (parse source).tree.HasFunction ∧ i.line = .error ⟨1, .int 0⟩ := fun i hi =>
    (lists_generate hc _ v g hrun i hi).resolve_left List.not_mem_nil
  rcases Tac.lines_cases fun i hi => (hlists i hi).imp_right And.right with
    ⟨hok, ls, hall, hlines⟩ | ⟨⟨i, hi, hline⟩, hlines⟩
  · have hno : ¬(parse source).tree.HasFunction := by
      rintro ⟨d, hd, hof⟩
      obtain ⟨u, k, k', -, hgv, hafter⟩ := hbet d (met_of_function hder hd hof)
      obtain ⟨s, hs⟩ := hok _ (hafter.code.subset (mem_code_of_function (hc.sub hd)
        ((parameterIn_names _).sub hd) hof hgv))
      cases hs
    refine ⟨v, g, hrun, ⟨fun herror => ?_, fun h => absurd h hno⟩, fun _ => ⟨ls, hall, ?_⟩⟩
    · rw [Tac.listing, hlines] at herror
      cases herror
    · rw [Tac.listing, hlines]
      rfl
  · have hyes : (parse source).tree.HasFunction :=
      ((hlists i hi).resolve_left fun ⟨s, hs⟩ => by rw [hline] at hs; cases hs).1
    refine ⟨v, g, hrun, ⟨fun _ => hyes, fun _ => ?_⟩, fun hno => absurd hyes hno⟩
    rw [Tac.listing, hlines]
    rfl

/-- A program with a function. -/
theorem listing_fails_iff_hasFunction_adding : (parse adding).errors = [] ∧
      ∃ v g, Generator.run (parse adding).tree (.start none) = (.ok v, g) ∧
        (Tac.listing ⟨g.code, g.labels⟩ = .error ⟨1, .int 0⟩ ↔ (parse adding).tree.HasFunction) ∧
        (¬(parse adding).tree.HasFunction →
          ∃ ls, List.Forall₂ (fun i s => i.line = .ok s) g.code ls ∧
            Tac.listing ⟨g.code, g.labels⟩ = .ok ("\n".intercalate ls)) :=
  ⟨adding_evaluated.1, listing_fails_iff_hasFunction adding none adding_evaluated.1⟩

end Gen

end Compiscript
