import Compiscript.Proofs.Codegen.Places

/-!
# The Code of Functions

The marks of generated code are the labels of the functions of the program, each as
often as there are functions for it, and the two around the main program.

Which labels a function has depends on the class around it, and that is all: the
generator is in no function when it comes to one.
-/

namespace Compiscript.Gen

open List hiding modify
open Compiscript.Tree

open Tac

/-- The labels of a function with a name. -/
def placesOf (c : Option String) : Option String → List String
  | some x => [(functionLabels c x).1, (functionLabels c x).2]
  | none => []

mutual

/-- The labels of the functions in a tree that belongs to a class or to none. -/
def placesIn (c : Option String) : Tree → List String
  | .node tag start cs =>
    let name := (Tree.node tag start cs).tokenText? .identifier
    match tag.rule with
    | .functionDeclaration => placesOf c name ++ placesInAll c cs
    | .classDeclaration => placesInAll name cs
    | _ => placesInAll c cs
  | _ => []

/-- The labels of the functions in several trees. -/
def placesInAll (c : Option String) : List Tree → List String
  | [] => []
  | t :: rest => placesIn c t ++ placesInAll c rest

end

mutual

/-- Whether there is a return in a tree that is not in a function there. -/
def strays : Tree → Bool
  | .node tag _ cs =>
    match tag.rule with
    | .functionDeclaration => false
    | .returnStatement => true
    | _ => straysIn cs
  | _ => false

/-- Whether there is such a return in one of several trees. -/
def straysIn : List Tree → Bool
  | [] => false
  | t :: rest => strays t || straysIn rest

end

section Places

variable {c : Option String} {t : Tree}

lemma placesInAll_eq (c : Option String) (cs : List Tree) :
    placesInAll c cs = cs.flatMap (placesIn c) := by
  induction cs with
  | nil => rfl
  | cons t cs ih => rw [placesInAll, flatMap_cons, ih]

lemma placesIn_of_function (h : t.isOf .functionDeclaration = true) :
    placesIn c t = placesOf c (t.tokenText? .identifier) ++ t.children.flatMap (placesIn c) := by
  obtain ⟨l, p, cs, rfl⟩ := exists_of_isOf h
  rw [placesIn, placesInAll_eq]
  rfl

lemma placesIn_of_class (h : t.isOf .classDeclaration = true) :
    placesIn c t = t.children.flatMap (placesIn (t.tokenText? .identifier)) := by
  obtain ⟨l, p, cs, rfl⟩ := exists_of_isOf h
  rw [placesIn]
  exact placesInAll_eq _ cs

lemma placesIn_of_other (hfun : t.isOf .functionDeclaration = false)
    (hclass : t.isOf .classDeclaration = false) :
    placesIn c t = t.children.flatMap (placesIn c) := by
  cases t with
  | node tag start cs =>
    have hf : tag.rule ≠ .functionDeclaration := fun h => by simp [isOf, h] at hfun
    have hc : tag.rule ≠ .classDeclaration := fun h => by simp [isOf, h] at hclass
    rw [placesIn]
    split
    · exact absurd ‹_› hf
    · exact absurd ‹_› hc
    · exact placesInAll_eq c cs
  | leaf _ => rfl
  | bad _ => rfl

lemma placesIn_eq_nil (c : Option String) (t : Tree)
    (h : t.Everywhere fun p => isOuter p = false) : placesIn c t = [] := by
  have hhere := h.here
  rw [isOuter, Bool.or_eq_false_iff, Bool.or_eq_false_iff] at hhere
  rw [placesIn_of_other hhere.1.2 hhere.2, flatMap_eq_nil_iff]
  exact fun d hd => placesIn_eq_nil c d (h.sub (.of_mem hd))
termination_by sizeOf t
decreasing_by exact sizeOf_child_lt hd

lemma straysIn_eq_false {cs : List Tree} (h : straysIn cs = false) :
    ∀ d ∈ cs, strays d = false := by
  induction cs with
  | nil => exact forall_mem_nil _
  | cons d cs ih =>
    rw [straysIn, Bool.or_eq_false_iff] at h
    exact forall_mem_cons.2 ⟨h.1, ih h.2⟩

lemma strays_child (h : strays t = false) (hfun : t.isOf .functionDeclaration = false) :
    ∀ d ∈ t.children, strays d = false := by
  cases t with
  | node tag start cs =>
    rw [strays] at h
    split at h
    · rename_i hru
      simp [isOf, hru] at hfun
    · cases h
    · exact straysIn_eq_false h
  | leaf _ => exact forall_mem_nil _
  | bad _ => exact forall_mem_nil _

lemma not_return_of_strays (t : Tree) (h : strays t = false)
    (hpl : t.Everywhere fun p => isOuter p = false) :
    t.Everywhere fun p => p.isOf .returnStatement = false := by
  have hfun : ∀ p : Tree, isOuter p = false → p.isOf .functionDeclaration = false := by
    intro p hp
    rw [isOuter, Bool.or_eq_false_iff, Bool.or_eq_false_iff] at hp
    exact hp.1.2
  intro p hp
  rcases within_iff.1 hp with rfl | ⟨d, hd, hpd⟩
  · cases p with
    | node tag start cs =>
      rw [strays] at h
      split at h
      · rename_i hru
        have := hfun _ hpl.here
        simp [isOf, hru] at this
      · cases h
      · rename_i hret
        exact beq_eq_false_iff_ne.2 hret
    | leaf _ => rfl
    | bad _ => rfl
  · exact not_return_of_strays d (strays_child h (hfun t hpl.here) d hd)
      (hpl.sub (.of_mem hd)) p hpd
termination_by sizeOf t
decreasing_by exact sizeOf_child_lt hd

end Places

/-! ### Trees in order -/

/-- Functions hold no functions and no classes, and classes hold no classes. -/
structure Flat (t : Tree) : Prop where
  function (h : t.isOf .functionDeclaration = true) :
    ∀ d ∈ t.children, d.Everywhere fun p => isOuter p = false
  ofClass (h : t.isOf .classDeclaration = true) :
    ∀ d ∈ t.children, d.Everywhere fun p => p.isOf .classDeclaration = false

instance (t : Tree) : Decidable (Flat t) :=
  decidable_of_iff
    ((t.isOf .functionDeclaration = true →
        ∀ d ∈ t.children, d.Everywhere fun p => isOuter p = false) ∧
      (t.isOf .classDeclaration = true →
        ∀ d ∈ t.children, d.Everywhere fun p => p.isOf .classDeclaration = false))
    ⟨fun ⟨hfun, hclass⟩ => ⟨hfun, hclass⟩, fun h => ⟨h.function, h.ofClass⟩⟩

/-- A function that is called a constructor does not return before its end. -/
def RunsThrough (t : Tree) : Prop :=
  t.isOf .functionDeclaration = true → t.tokenText? .identifier = some "constructor" →
    t.Everywhere fun p => p.isOf .returnStatement = false

instance : DecidablePred RunsThrough := fun t =>
  inferInstanceAs (Decidable (t.isOf .functionDeclaration = true →
    t.tokenText? .identifier = some "constructor" → _))

/-- A tree that belongs to a class or to none, with its functions, returns and calls in order. -/
structure Tidy (L : Set String) (c : Option String) (t : Tree) : Prop where
  flat : t.Everywhere Flat
  strays : strays t = false
  classes : t.Everywhere fun p => p.isOf .classDeclaration = true → p.Everywhere RunsThrough
  member (h : c ≠ none) : t.isOf .classDeclaration = false ∧
    t.Everywhere (fun p => p.isOf .classDeclaration = false) ∧ t.Everywhere RunsThrough
  known : t.Everywhere (Known L)
  places : ∀ l ∈ placesIn c t, l ∈ L

instance {L : Set String} [DecidablePred (· ∈ L)] (t : Tree) : Decidable (Tidy L none t) :=
  decidable_of_iff
    (t.Everywhere Flat ∧ strays t = false ∧
      (t.Everywhere fun p => p.isOf .classDeclaration = true → p.Everywhere RunsThrough) ∧
      t.Everywhere (Known L) ∧ ∀ l ∈ placesIn none t, l ∈ L)
    ⟨fun ⟨hflat, hstr, hcls, hkn, hpls⟩ =>
      ⟨hflat, hstr, hcls, fun h => absurd rfl h, hkn, hpls⟩,
      fun h => ⟨h.flat, h.strays, h.classes, h.known, h.places⟩⟩

namespace Tidy

variable {L : Set String} {c : Option String} {t d : Tree}

/-- The parts of a statement are in order. -/
lemma child (h : Tidy L c t) (hfun : t.isOf .functionDeclaration = false)
    (hclass : t.isOf .classDeclaration = false) (hd : d ∈ t.children) : Tidy L c d where
  flat := h.flat.sub (.of_mem hd)
  strays := strays_child h.strays hfun d hd
  classes := h.classes.sub (.of_mem hd)
  member hc := by
    obtain ⟨-, hno, hruns⟩ := h.member hc
    exact ⟨hno d (.of_mem hd), hno.sub (.of_mem hd), hruns.sub (.of_mem hd)⟩
  known := h.known.sub (.of_mem hd)
  places l hl := by
    refine h.places l ?_
    rw [placesIn_of_other hfun hclass]
    exact mem_flatMap.2 ⟨d, hd, hl⟩

/-- The parts of a class are in order, as parts of it. -/
lemma ofClass (h : Tidy L c t) (hclass : t.isOf .classDeclaration = true) (hd : d ∈ t.children) :
    Tidy L (t.tokenText? .identifier) d where
  flat := h.flat.sub (.of_mem hd)
  strays := strays_child h.strays (isOf_eq_false hclass (by decide)) d hd
  classes := h.classes.sub (.of_mem hd)
  member _ := by
    have hno := h.flat.here.ofClass hclass d hd
    exact ⟨hno.here, hno, (h.classes.here hclass).sub (.of_mem hd)⟩
  known := h.known.sub (.of_mem hd)
  places l hl := by
    refine h.places l ?_
    rw [placesIn_of_class hclass]
    exact mem_flatMap.2 ⟨d, hd, hl⟩

end Tidy

/-! ### The marks of nodes -/

/-- What the code of a statement does outside of functions. -/
abbrev LaysPlaces (L : Set String) (c : Option String) (t : Tree) (x : Gen Value) : Prop :=
  Lays L ⟨none, c⟩ ⟨none, c⟩ (placesIn c t) (fun _ => True) x

section Node

variable {L : Set String} {c : Option String} {t : Tree} {visit : t.Sub → Gen Value}

lemma lays_visitStatements {parts : List t.Sub}
    (hv : ∀ k ∈ parts, LaysPlaces L c k.tree (visit k)) :
    Lays L ⟨none, c⟩ ⟨none, c⟩ ((parts.map Sub.tree).flatMap (placesIn c)) (fun _ => True)
      (visitStatements t visit parts) := by
  induction parts with
  | nil => exact .pure trivial
  | cons k parts ih =>
    obtain ⟨hk, hrs⟩ := forall_mem_cons.1 hv
    rw [visitStatements, map_cons, flatMap_cons]
    exact hk.bind fun _ _ => ih hrs

lemma lays_visitAll (hv : ∀ k ∈ t.subs, LaysPlaces L c k.tree (visit k)) :
    Lays L ⟨none, c⟩ ⟨none, c⟩ (t.children.flatMap (placesIn c)) (fun _ => True)
      (visitAll visit) := by
  -- The value that is carried along makes no difference.
  have hfo : ∀ (parts : List t.Sub) (v : Value), (∀ k ∈ parts, LaysPlaces L c k.tree (visit k)) →
      Lays L ⟨none, c⟩ ⟨none, c⟩ ((parts.map Sub.tree).flatMap (placesIn c)) (fun _ => True)
        (parts.foldlM (fun _ k => visit k) v) := by
    intro parts
    induction parts with
    | nil => exact fun v _ => .pure trivial
    | cons k parts ih =>
      intro v hpts
      obtain ⟨hk, hrs⟩ := forall_mem_cons.1 hpts
      rw [foldlM_cons, map_cons, flatMap_cons]
      exact hk.bind fun w _ => ih w hrs
  rw [← subs_map_tree t]
  exact hfo t.subs .none hv

/-! ### Functions and classes -/

variable {s : Spot} {ps : List Tree}

lemma lays_placeParameters (f : String) (i : Nat)
    (hps : ∀ p ∈ ps, ∃ x, p.tokenText? .identifier = some x) :
    Stays L s (placeParameters f i ps) := by
  induction ps generalizing i with
  | nil => exact .pure trivial
  | cons p ps ih =>
    obtain ⟨⟨x, hx⟩, hrs⟩ := forall_mem_cons.1 hps
    simp only [placeParameters, tokenText, hx, need, pure_bind]
    refine (Lays.resolve? x).first ?_
    rintro _ rfl
    exact (Lays.place _ _ _).first fun _ _ => ih (i + 1) hrs

lemma lays_openFunction (x : String) (c : Option String)
    {entry : String} (hent : isLabelName entry = false) (exit : String)
    (hps : ∀ p ∈ ps, ∃ x, p.tokenText? .identifier = some x) :
    Lays L s s [entry] (fun _ => True) (openFunction x ps c entry exit) := by
  have hsts := Lays.steps L s
  have hrs : Stays L s (do
      modify fun s => { s with frames := s.frames.ensure x }
      placeParameters x 0 ps
      emit .enter (.int 0) .none .none : Gen Unit) :=
    (Lays.frames (·.ensure x)).first fun _ _ => (lays_placeParameters x 0 hps).first fun _ _ =>
      .enter
  rw [openFunction]
  refine (Lays.storeLabels x entry exit).first fun _ _ => (Lays.label hent).last fun _ _ => ?_
  cases c with
  | none => exact hrs
  | some C => exact Lays.first (hsts.emit rfl _ _ _) fun _ _ => hrs

lemma lays_closeFunction {exit : String} (hexit : isLabelName exit = false) :
    Lays L s ⟨none, s.inClass⟩ [exit] (fun _ => True) (closeFunction exit) := by
  have hlv : Lays L s ⟨none, s.inClass⟩ [] (fun _ => True)
      (modify fun g => { g with function := none, result := none } : Gen Unit) :=
    .of_silent fun g hg => ⟨(), { g with function := none, result := none }, rfl, rfl,
      ⟨rfl, hg.inClass, hg.symbols⟩, trivial⟩
  rw [closeFunction]
  refine (Lays.label hexit).last fun _ _ => .get fun g _ => ?_
  split
  · exact Lays.first ((Lays.steps L s).emit rfl _ _ _) fun _ _ => hlv
  · exact Lays.first ((Lays.steps L s).emit rfl _ _ _) fun _ _ => hlv

lemma functionLabels_exit {x : String} (h : c = none ∨ x ≠ "constructor") :
    (functionLabels c x).2 = x ++ "_exit" := by
  unfold functionLabels
  split
  · rcases h with h | h
    · cases h
    · exact absurd rfl h
  · rfl

lemma lays_declareFunction (hc : t.Everywhere Complete) (h : Tidy L c t)
    (hof : t.isOf .functionDeclaration = true) (hx : ∃ x, t.tokenText? .identifier = some x) :
    LaysPlaces L c t (declareFunction t (generate ·.tree)) := by
  obtain ⟨x, hx⟩ := hx
  have hpl := h.flat.here.function hof
  have hpls : placesIn c t = [(functionLabels c x).1, (functionLabels c x).2] := by
    have hbd : t.children.flatMap (placesIn c) = [] :=
      flatMap_eq_nil_iff.2 fun d hd => placesIn_eq_nil c d (hpl d hd)
    rw [placesIn_of_function hof, hbd, hx, append_nil]
    rfl
  have hpar : ∀ p ∈ parametersOf t, ∃ x, p.tokenText? .identifier = some x := by
    intro p hp
    have hany : t.Everywhere (ParameterIn Set.univ) := fun _ _ _ _ _ => trivial
    obtain ⟨y, -, hy⟩ := exists_parameter hc hany p hp
    exact ⟨y, hy⟩
  have hbd : Stays L ⟨some x, c⟩ (functionBody t (generate ·.tree)) := by
    rw [functionBody]
    split
    · rename_i b hb
      have hmem := (of_kid? hb).1
      refine lays_plain b.tree (hc.sub (.of_mem hmem)) (hpl _ hmem) (h.known.sub (.of_mem hmem)) ?_
      intro p hp hret
      -- A constructor of a class has another label at its end, but it has no returns.
      have hexit : c = none ∨ x ≠ "constructor" := by
        by_contra hno
        rw [not_or, not_not] at hno
        obtain ⟨-, -, hruns⟩ := h.member hno.1
        have hnot := hruns.here hof (hno.2 ▸ hx) p (hp.trans (.of_mem hmem))
        rw [hnot] at hret
        cases hret
      refine h.places _ ?_
      rw [hpls, functionLabels_exit hexit]
      simp
    · exact .pure trivial
  obtain ⟨hent, hexit⟩ := isLabelName_functionLabels c x
  rw [LaysPlaces, hpls, declareFunction_eq hx]
  have hen : Lays L ⟨none, c⟩ ⟨some x, c⟩ [] (fun _ => True)
      (modify fun g => { g with function := some x, result := none } : Gen Unit) :=
    .of_silent fun g hg => ⟨(), { g with function := some x, result := none }, rfl, rfl,
      ⟨rfl, hg.inClass, hg.symbols⟩, trivial⟩
  refine hen.first fun _ _ => .get fun g hg => ?_
  rw [hg.inClass]
  change Lays L _ _ ([_] ++ [_]) _ _
  refine (lays_openFunction x c hent _ hpar).bind fun _ _ => ?_
  exact hbd.first fun _ _ => (lays_closeFunction hexit).last fun _ _ => .pure trivial

lemma flatMap_placesIn_kids {r : Rule}
    (ho : ∀ d ∈ t.children, d.isOf r = false → ∃ tok, d = .leaf tok) :
    t.children.flatMap (placesIn c) = ((t.kids r).map Sub.tree).flatMap (placesIn c) := by
  rw [kids_map_tree]
  generalize t.children = cs at ho
  induction cs with
  | nil => rfl
  | cons d cs ih =>
    obtain ⟨hd, hrs⟩ := forall_mem_cons.1 ho
    rw [flatMap_cons, ih hrs]
    cases hof : d.isOf r with
    | true => rw [filter_cons_of_pos hof, flatMap_cons]
    | false =>
      obtain ⟨tok, rfl⟩ := hd hof
      rw [filter_cons_of_neg (by simp)]
      rfl

lemma lays_declareClass (hof : t.isOf .classDeclaration = true)
    (hx : ∃ x, t.tokenText? .identifier = some x)
    (hmbs : ∀ d ∈ t.children, d.isOf .classMember = false → ∃ tok, d = .leaf tok)
    (hv : ∀ k ∈ t.kids .classMember, LaysPlaces L (t.tokenText? .identifier) k.tree (visit k)) :
    LaysPlaces L none t (declareClass t visit) := by
  obtain ⟨x, hx⟩ := hx
  have hset : ∀ c c' : Option String, Lays L ⟨none, c⟩ ⟨none, c'⟩ [] (fun _ => True)
      (modify fun g => { g with inClass := c' } : Gen Unit) := fun c c' =>
    .of_silent fun g hg => ⟨(), { g with inClass := c' }, rfl, rfl,
      ⟨hg.function, rfl, hg.symbols⟩, trivial⟩
  rw [hx] at hv
  rw [LaysPlaces, placesIn_of_class hof, hx, flatMap_placesIn_kids hmbs]
  simp only [declareClass, tokenText, hx, need, pure_bind]
  refine (hset none (some x)).first fun _ _ => (lays_visitStatements hv).last fun _ _ => ?_
  exact (hset (some x) none).first fun _ _ => .pure trivial

end Node

/-! ### Statements -/

section Statements

variable {P : Token → Prop} {t : Tree}

/-- Rules whose trees may hold functions. -/
def mayDeclare : Rule → Bool
  | .program | .statement | .block | .ifStatement | .whileStatement | .doWhileStatement => true
  | .forStatement | .foreachStatement | .tryCatchStatement | .switchStatement => true
  | .switchCase | .defaultCase | .functionDeclaration | .classDeclaration | .classMember => true
  | _ => false

lemma closed_not_mayDeclare : Rule.Closed fun r => !mayDeclare r := by decide

lemma closed_ne_program : Rule.Closed fun r => r != .program := by decide

variable {r : Rule}

lemma not_isOuter_of_derives (h : Derives P r t) (hr : mayDeclare r = false) :
    t.Everywhere fun p => isOuter p = false := by
  have hrules := h.everywhere_rule closed_not_mayDeclare (by simp [hr])
  intro p hp
  cases p with
  | node tag start cs =>
    have hru := hrules _ hp tag rfl
    rw [isOuter, Bool.or_eq_false_iff, Bool.or_eq_false_iff]
    refine ⟨⟨beq_eq_false_iff_ne.2 ?_, beq_eq_false_iff_ne.2 ?_⟩, beq_eq_false_iff_ne.2 ?_⟩ <;>
      (intro heq; rw [heq] at hru; cases hru)
  | leaf _ => rfl
  | bad _ => rfl

lemma children_whileStatement (h : Derives P .whileStatement t) :
    ∃ k o e p b, t.children = [.leaf k, .leaf o, e, .leaf p, b] ∧ e.isOf .expression = true ∧
      b.isOf .block = true := by
  obtain ⟨e, start, cs, he, hcs, rfl⟩ := h
  cases mem_singleton.1 he
  cases hcs with
  | token _ _ hcs => cases hcs with
  | token _ _ hcs => cases hcs with
  | rule _ _ hcs => cases hcs with
  | token _ _ hcs => cases hcs with
  | rule _ _ hcs => cases hcs with
  | nil => exact ⟨_, _, _, _, _, rfl, beq_self_eq_true _, beq_self_eq_true _⟩

lemma children_ifStatement (h : Derives P .ifStatement t) :
    ∃ k o e p a bs, t.children = .leaf k :: .leaf o :: e :: .leaf p :: a :: bs ∧
      e.isOf .expression = true ∧ a.isOf .block = true ∧
      (bs = [] ∨ ∃ l b, bs = [.leaf l, b] ∧ b.isOf .block = true) := by
  obtain ⟨e, start, cs, he, hcs, rfl⟩ := h
  cases mem_singleton.1 he
  cases hcs with
  | token _ _ hcs => cases hcs with
  | token _ _ hcs => cases hcs with
  | rule _ _ hcs => cases hcs with
  | token _ _ hcs => cases hcs with
  | rule _ _ hcs =>
    refine ⟨_, _, _, _, _, _, rfl, beq_self_eq_true _, beq_self_eq_true _, ?_⟩
    cases hcs with
    | skip hcs =>
      cases hcs with
      | nil => exact .inl rfl
    | take hcs => cases hcs with
    | token _ _ hcs => cases hcs with
    | rule _ _ hcs => cases hcs with
    | nil => exact .inr ⟨_, _, rfl, beq_self_eq_true _⟩

variable {L : Set String} {c : Option String} {visit : t.Sub → Gen Value}

lemma lays_whileStatement (h : Derives P .whileStatement t)
    (hpls : placesIn c t = t.children.flatMap (placesIn c))
    (hv : ∀ k ∈ t.subs, LaysPlaces L c k.tree (visit k)) :
    LaysPlaces L c t (whileStatement t visit) := by
  obtain ⟨tok, o, e, p, b, hchs, he, hb⟩ := children_whileStatement h
  have hbe := isOf_eq_false hb (by decide : Rule.block ≠ .expression)
  have heb := isOf_eq_false he (by decide : Rule.expression ≠ .block)
  obtain ⟨ke, hke, rfl⟩ := kid?_eq_some (t := t) (r := .expression) (c := e)
    (by simp [hchs, he, hbe])
  obtain ⟨kb, hkb, rfl⟩ := kid?_eq_some (t := t) (r := .block) (c := b)
    (by simp [hchs, hb, heb])
  have hsub : ∀ {r : Rule} {k : t.Sub}, t.kid? r = some k → LaysPlaces L c k.tree (visit k) :=
    fun hk => hv _ (mem_filter.1 (mem_kids_of_kid? hk)).1
  rw [whileStatement_eq hke hkb, LaysPlaces, hpls, hchs]
  refine ((Lays.labelling L _).loop (hsub hke) (hsub hkb)).mono (.of_eq ?_) fun _ h => h
  simp [placesIn]

lemma lays_ifStatement (h : Derives P .ifStatement t)
    (hpls : placesIn c t = t.children.flatMap (placesIn c))
    (hv : ∀ k ∈ t.subs, LaysPlaces L c k.tree (visit k)) :
    LaysPlaces L c t (ifStatement t visit) := by
  obtain ⟨tok, o, e, p, a, bs, hchs, he, ha, hbs⟩ := children_ifStatement h
  have hae := isOf_eq_false ha (by decide : Rule.block ≠ .expression)
  have heb := isOf_eq_false he (by decide : Rule.expression ≠ .block)
  obtain ⟨ke, hke, rfl⟩ := kid?_eq_some (t := t) (r := .expression) (c := e)
    (by simp [hchs, he])
  have hsub : ∀ {r : Rule} {k : t.Sub}, k ∈ t.kids r → LaysPlaces L c k.tree (visit k) :=
    fun hk => hv _ (mem_filter.1 hk).1
  have hcond := hsub (mem_kids_of_kid? hke)
  rcases hbs with rfl | ⟨l, b, rfl, hb⟩
  · obtain ⟨ka, hks, rfl⟩ := kids_eq_singleton (t := t) (r := .block) (c := a)
      (by simp [hchs, ha, heb])
    have hka : t.kid? .block = some ka := by rw [kid?, hks]; rfl
    have hnn : t.kidAt? .block 1 = none := by rw [kidAt?, hks]; rfl
    rw [ifStatement_eq hke hka, hnn, LaysPlaces, hpls, hchs]
    refine ((Lays.labelling L _).branch hcond (hsub (mem_kids_of_kid? hka)) (.pure trivial)).mono
      (.of_eq ?_)
      fun _ h => h
    simp [placesIn]
  · obtain ⟨ka, kb, hks, rfl, rfl⟩ := kids_eq_pair (t := t) (r := .block) (c := a) (d := b)
      (by simp [hchs, ha, heb, hb])
    have hka : t.kid? .block = some ka := by rw [kid?, hks]; rfl
    have hkb : t.kidAt? .block 1 = some kb := by rw [kidAt?, hks]; rfl
    rw [ifStatement_eq hke hka, hkb, LaysPlaces, hpls, hchs]
    refine ((Lays.labelling L _).branch hcond (hsub (mem_kids_of_kid? hka))
      (hsub (mem_of_getElem? hkb))).mono (.of_eq ?_) fun _ h => h
    simp [placesIn]

end Statements

lemma label_eq_none {r : Rule} (hr : mayDeclare r = true) : ∀ e ∈ production r, e.label = none := by
  revert hr
  cases r <;> decide

lemma lays_generate {P : Token → Prop} {L : Set String} {r : Rule} {c : Option String} (t : Tree)
    (h : Derives P r t) (hr : r ≠ .program) (htidy : Tidy L c t) :
    LaysPlaces L c t (generate t) := by
  have hcom := complete_of_derives h
  have hpts : ∀ k : t.Sub, k ∈ t.subs → ∀ {c' : Option String}, Tidy L c' k.tree →
      LaysPlaces L c' k.tree (generate k.tree) := by
    intro k hk c' htidy'
    have hin := Tree.Within.of_subs hk
    cases hkt : k.tree with
    | node tag start cs =>
      have htag : k.tree.tag? = some tag := by rw [hkt]; rfl
      have hne := h.everywhere_rule closed_ne_program (by simpa using hr) k.tree hin tag htag
      rw [← hkt]
      exact lays_generate k.tree (h.of_within hin htag) (by simpa using hne) htidy'
    | leaf tok =>
      rw [generate_eq]
      exact .pure trivial
    | bad tok =>
      rw [generate_eq]
      exact .pure trivial
  cases hmay : mayDeclare r with
  | false =>
    have hpl := not_isOuter_of_derives h hmay
    have hretu := not_return_of_strays t htidy.strays hpl
    rw [LaysPlaces, placesIn_eq_nil c t hpl]
    refine lays_plain t hcom hpl htidy.known fun p hp hret => ?_
    rw [hretu p hp] at hret
    cases hret
  | true =>
    have hder := h
    obtain ⟨⟨label, body⟩, start, cs, he, hcs, rfl⟩ := h
    obtain rfl : label = none := label_eq_none hmay _ he
    have hof : (Tree.node ⟨r, none⟩ start cs).isOf r = true := beq_self_eq_true _
    -- Nodes that are neither functions nor classes hand everything down.
    have hinn : r ≠ .functionDeclaration → r ≠ .classDeclaration →
        placesIn c (.node ⟨r, none⟩ start cs) = cs.flatMap (placesIn c) ∧
        ∀ k ∈ (Tree.node ⟨r, none⟩ start cs).subs, LaysPlaces L c k.tree (generate k.tree) := by
      intro hfun hclass
      have hf := isOf_eq_false hof hfun
      have hcl := isOf_eq_false hof hclass
      refine ⟨placesIn_of_other hf hcl, fun k hk => hpts k hk ?_⟩
      exact htidy.child hf hcl (mem_children_of_mem_subs hk)
    have hnm : [Part.token .identifier] ∈ requiredByRule r →
        ∃ x, (Tree.node ⟨r, none⟩ start cs).tokenText? .identifier = some x :=
      fun h => hcom.here.exists_text rfl (mem_required_of_rule h)
    rw [generate_eq]
    cases r with
    | program => exact absurd rfl hr
    | functionDeclaration =>
      exact lays_declareFunction hcom htidy hof (hnm (.head _))
    | classDeclaration =>
      -- There are no classes in classes.
      obtain rfl : c = none := by
        by_contra hc
        rw [(htidy.member hc).1] at hof
        cases hof
      refine lays_declareClass hof (hnm (.head _))
        (fun d hd => hder.leaf_of_mem hd (by decide)) fun k hk => ?_
      obtain ⟨hmem, -⟩ := of_mem_kids hk
      exact hpts k (mem_filter.1 hk).1 (htidy.ofClass hof hmem)
    | ifStatement =>
      obtain ⟨hpls, hsubs⟩ := hinn (by decide) (by decide)
      exact lays_ifStatement hder hpls hsubs
    | whileStatement =>
      obtain ⟨hpls, hsubs⟩ := hinn (by decide) (by decide)
      exact lays_whileStatement hder hpls hsubs
    | statement | block | doWhileStatement | forStatement | foreachStatement | tryCatchStatement
      | switchStatement | switchCase | defaultCase | classMember =>
        obtain ⟨hpls, hsubs⟩ := hinn (by decide) (by decide)
        rw [LaysPlaces, hpls]
        exact lays_visitAll hsubs
    | _ => cases hmay
termination_by sizeOf t
decreasing_by exact k.2

/-- The marks of a program in order are the labels of its functions, and one mark
    each at the start and at the end of what is outside of them. -/
lemma lays_program {P : Token → Prop} {L : Set String} {t : Tree} (h : Derives P .program t)
    (htidy : Tidy L none t) :
    Lays L ⟨none, none⟩ ⟨none, none⟩ ("program_start" :: "program_end" :: placesIn none t)
      (fun _ => True) (generate t) := by
  have hof : t.isOf .program = true := by
    obtain ⟨e, start, cs, -, -, rfl⟩ := h
    exact beq_self_eq_true _
  have hfun := isOf_eq_false hof (by decide : Rule.program ≠ .functionDeclaration)
  have hclass := isOf_eq_false hof (by decide : Rule.program ≠ .classDeclaration)
  have hpls : placesIn none t = ((t.kids .statement).map Sub.tree).flatMap (placesIn none) := by
    rw [placesIn_of_other hfun hclass]
    exact flatMap_placesIn_kids fun d hd => h.leaf_of_mem hd (by decide)
  have hv : ∀ k ∈ t.kids .statement, LaysPlaces L none k.tree (generate k.tree) := by
    intro k hk
    obtain ⟨hmem, hstmt⟩ := of_mem_kids hk
    exact lays_generate k.tree (h.of_isOf (.of_mem hmem) hstmt) (by decide)
      (htidy.child hfun hclass hmem)
  have hpro : generate t = program t (generate ·.tree) := by
    obtain ⟨e, start, cs, he, -, rfl⟩ := h
    cases mem_singleton.1 he
    exact generate_eq _
  have hmk : ∀ {l : String}, l ∈ ["program_start", "program_end"] →
      Lays L ⟨none, none⟩ ⟨none, none⟩ [l] (fun _ => True) (label l) :=
    fun {l} hl => .label (by revert l; decide)
  have hpt : ∀ p : t.Sub → Bool, Lays L ⟨none, none⟩ ⟨none, none⟩
      ((((t.kids .statement).filter p).map Sub.tree).flatMap (placesIn none)) (fun _ => True)
      (visitStatements t (generate ·.tree) ((t.kids .statement).filter p)) :=
    fun p => lays_visitStatements fun k hk => hv k (mem_filter.1 hk).1
  rw [hpro, program, hpls]
  rw [partition_eq_filter_filter]
  refine Lays.mono ((hmk (by simp)).bind fun _ _ => (hpt _).bind fun _ _ =>
    (hmk (by simp)).bind fun _ _ => (hpt _).last fun _ _ => .pure trivial) ?_ fun _ h => h
  -- The declarations come last, whatever their place in the text.
  rw [singleton_append, singleton_append]
  refine .cons _ (perm_middle.trans (.cons _ ?_))
  rw [← flatMap_append, ← map_append]
  exact ((filter_append_perm _ _).symm.trans perm_append_comm).symm.map _ |>.flatMap_right _

/-- The labels of the functions of a program are different, and its functions, returns
    and calls are in order. -/
structure WellPlaced (t : Tree) : Prop where
  nodup : (placesIn none t).Nodup
  tidy : Tidy {l | l ∈ placesIn none t} none t

instance : DecidablePred WellPlaced := fun t =>
  have : DecidablePred (· ∈ {l | l ∈ placesIn none t}) := fun l =>
    inferInstanceAs (Decidable (l ∈ placesIn none t))
  decidable_of_iff ((placesIn none t).Nodup ∧ Tidy {l | l ∈ placesIn none t} none t)
    ⟨fun ⟨hnd, htidy⟩ => ⟨hnd, htidy⟩, fun h => ⟨h.nodup, h.tidy⟩⟩

end Compiscript.Gen
