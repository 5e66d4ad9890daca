import Compiscript.Proofs.Codegen.Parts
import Mathlib.Data.Set.Defs

/-!
# Induction over the Generator

A property of steps that holds for the smallest ones and is kept when steps are put
one behind the other holds for the code of every tree that lacks nothing.

`Gen.Steps` lists what is to be shown: the small steps, and four ways to put steps
together around labels. A label that has been made up is not in its place yet.
Returns, functions and classes need more, which is in `Gen.Outer`, and so do calls,
which is in `Gen.Invariant`.

A property may also depend on the trees that a step visits, which are its grade. What is
said about nodes is said for graded properties.
-/

namespace Compiscript.Gen

open List hiding foldlM get mapM modify
open Compiscript.Tree

/-- A parameter has one of certain names. -/
def ParameterIn (params : Set String) (t : Tree) : Prop :=
  t.isOf .parameter = true → ∀ x, t.tokenText? .identifier = some x → x ∈ params

/-- The parameters of a function have names, and only certain ones. -/
lemma exists_parameter {params : Set String} {t : Tree} (hc : t.Everywhere Complete)
    (hp : t.Everywhere (ParameterIn params)) :
    ∀ p ∈ parametersOf t, ∃ x ∈ params, p.tokenText? .identifier = some x := by
  intro p hmem
  unfold parametersOf at hmem
  split at hmem
  · cases hmem
  · rename_i ps hps
    obtain ⟨k, hk, rfl⟩ := mem_map.1 hmem
    have hin : k.tree.Within t :=
      (Within.of_kids hk).trans (.of_kid? hps)
    obtain ⟨-, hof⟩ := of_mem_kids hk
    obtain ⟨l, p, cs, hkt⟩ := exists_of_isOf hof
    obtain ⟨x, hx⟩ := (hc k.tree hin).exists_text (by rw [hkt]; rfl)
      (mem_required_of_rule (.head _))
    exact ⟨x, hp k.tree hin hof x hx, hx⟩

/-! ### What has to be shown -/

/-- Two states in the middle of the same function and class. -/
structure Context (g h : Generator) : Prop where
  function : g.function = h.function
  inClass : g.inClass = h.inClass
  result : g.result = h.result

/-- A property of steps and of what they meet, such as the trees that they visit. -/
structure Sequencing {δ : Type} (Q : List δ → ∀ {α : Type}, Gen α → Prop) : Prop where
  pure {α : Type} (a : α) : Q [] (Pure.pure a : Gen α)
  seq {α β : Type} {p q : List δ} {x : Gen α} {f : α → Gen β} (hx : Q p x)
    (hf : ∀ a, Q q (f a)) : Q (p ++ q) (x >>= f)

/-- The property holds for the small steps that add no code. -/
structure Quiet (Q : List Tree → ∀ {α : Type}, Gen α → Prop) : Prop extends Sequencing Q where
  get {β : Type} {p : List Tree} {k : Generator → Gen β} (hk : ∀ g h, Context g h → k g = k h)
    (h : ∀ g, Q p (k g)) : Q p (MonadState.get >>= k)
  freshTemp : Q [] freshTemp
  release (v : Value) : Q [] (release v)
  setResult (n : Int) : Q [] (modify fun s => { s with result := some n } : Gen Unit)
  readName (x : String) : Q [] (readName x)
  placeInFunction (x : String) : Q [] (placeInFunction x)

/-- The same, with the steps around functions and classes. Parameters may be known to
    have certain names only. -/
structure QuietOuter (params : Set String) (Q : List Tree → ∀ {α : Type}, Gen α → Prop) : Prop
    extends Quiet Q where
  setFunction (f : Option String) :
    Q [] (modify fun s => { s with function := f, result := none } : Gen Unit)
  setClass (c : Option String) : Q [] (modify fun s => { s with inClass := c } : Gen Unit)
  ensureFrame (f : String) :
    Q [] (modify fun s => { s with frames := s.frames.ensure f } : Gen Unit)
  placeParameter {x : String} (hx : x ∈ params) (f : String) (i : Nat) :
    Q [] (resolve? x >>= fun sym => place Frame.addParam f x (sym.map (numbered i)))
  storeLabels (x entry exit : String) : Q [] (storeLabels x entry exit)

/-- The property holds for the small steps. -/
structure Steps (Q : List Tree → ∀ {α : Type}, Gen α → Prop) : Prop extends Quiet Q where
  emit {op : Op} (h : op.isPlain = true) (a1 a2 res : Operand) [a1.Shown] [a2.Shown] [res.Shown] :
    Q [] (emit op a1 a2 res)
  choose {p q r : List Tree} {cond first second : Gen Value} (hc : Q p cond) (ha : Q q first)
    (hb : Q r second) : Q (p ++ (q ++ r)) (choose cond first second)
  shortcut {p q : List Tree} {skip : Op} (hsk : skip = .ifz ∨ skip = .ifnz) (decided : String)
    {first second : Gen Value} (ha : Q p first) (hb : Q q second) :
    Q (p ++ q) (shortcut skip decided first second)
  branch {p q r : List Tree} {cond first second : Gen Value} (hc : Q p cond) (ha : Q q first)
    (hb : Q r second) : Q (p ++ (q ++ r)) (branch cond first second)
  loop {p q : List Tree} {cond body : Gen Value} (hc : Q p cond) (hb : Q q body) :
    Q (p ++ q) (loop cond body)

/-- The same, with the small steps around functions and classes. -/
structure Outer (params : Set String) (Q : List Tree → ∀ {α : Type}, Gen α → Prop) : Prop
    extends Steps Q, QuietOuter params Q where
  mark {l : String} (h : Tac.isLabelName l = false) : Q [] (label l)
  leave (f : String) : Q [] (jump (f ++ "_exit"))

/-- The same, with the small steps of calls and the start of a function. -/
structure Invariant (params : Set String) (Q : List Tree → ∀ {α : Type}, Gen α → Prop) : Prop
    extends Outer params Q where
  param (a : Operand) [a.Shown] : Q [] (Gen.emit .param a .none .none)
  call (a1 a2 res : Operand) [a1.Shown] [a2.Shown] [res.Shown] : Q [] (Gen.emit .call a1 a2 res)
  enter : Q [] (Gen.emit .enter (.int 0) .none .none)

/-- What chains need of the small steps, but for passing operands and for calls. The instructions
    that link the parts of a chain count, too. -/
structure Linking (Q : List Piece → ∀ {α : Type}, Gen α → Prop) : Prop extends Sequencing Q where
  freshTemp : Q [] freshTemp
  release (v : Value) : Q [] (release v)
  link {op : Op} (h : op = .getp ∨ op = .index) (a1 a2 res : Operand) [a1.Shown] [a2.Shown]
    [res.Shown] : Q [.link op] (emit op a1 a2 res)

structure Calling (Q : List Piece → ∀ {α : Type}, Gen α → Prop) : Prop extends Linking Q where
  param (a : Operand) [a.Shown] : Q [] (emit .param a .none .none)
  call (site : Site) (a1 a2 res : Operand) [a1.Shown] [a2.Shown] [res.Shown] :
    Q [.call site] (emit .call a1 a2 res)

/-- Make up a label, by its number. -/
def countLabel : Gen Nat := do
  let n := (← MonadState.get).labels
  modify fun s => { s with labels := n + 1 }
  return n

lemma freshLabel_bind {β : Type} (f : String → Gen β) :
    freshLabel >>= f = countLabel >>= fun n => f (Tac.labelName n) := by
  simp only [freshLabel, countLabel, bind_assoc, pure_bind]
  rfl

/-- A property to which it makes no difference where labels stand that were made up, by
    what it says about the small steps that code with labels is made of. -/
structure Labelling {δ : Type} (Q : List δ → ∀ {α : Type}, Gen α → Prop) : Prop
    extends Sequencing Q where
  countLabel : Q [] countLabel
  freshTemp : Q [] freshTemp
  release (v : Value) : Q [] (release v)
  move (v : Value) (x : String) : Q [] (move v x)
  test {op : Op} (h : op = .ifz ∨ op = .ifnz) (a : Operand) [a.Shown] (n : Nat) :
    Q [] (emit op a .none (.text (Tac.labelName n)))
  jump (n : Nat) : Q [] (jump (Tac.labelName n))
  label (n : Nat) : Q [] (label (Tac.labelName n))

/-- A property that says the same about all instructions, so that making up a
    label is a small step like others. -/
structure Uniform (params : Set String) (Q : List Tree → ∀ {α : Type}, Gen α → Prop) : Prop
    extends QuietOuter params Q where
  emit (op : Op) (a1 a2 res : Operand) : Q [] (emit op a1 a2 res)
  countLabel : Q [] countLabel

namespace Sequencing

variable {δ : Type} {Q : List δ → ∀ {α : Type}, Gen α → Prop} (hQ : Sequencing Q) {α β : Type}
  {x : Gen α} {f : α → Gen β} {p : List δ}

include hQ

lemma bind (hx : Q [] x) (hf : ∀ a, Q p (f a)) : Q p (x >>= f) := hQ.seq hx hf

lemma last (hx : Q p x) (hf : ∀ a, Q [] (f a)) : Q p (x >>= f) := by
  have h := hQ.seq hx hf
  rwa [append_nil] at h

lemma map {g : α → β} (hx : Q p x) : Q p (do return g (← x)) :=
  hQ.last hx fun _ => hQ.pure _

lemma mapM {D : α → δ} {xs : List α} (h : ∀ x ∈ xs, Q [D x] (f x)) : Q (xs.map D) (xs.mapM f) := by
  induction xs with
  | nil => exact hQ.pure []
  | cons x xs ih =>
    obtain ⟨hx, hxs⟩ := forall_mem_cons.1 h
    rw [mapM_cons]
    exact hQ.seq hx fun b => hQ.last (ih hxs) fun bs => hQ.pure (b :: bs)

lemma foldlM {f : Value → α → Gen Value} {D : α → δ} {xs : List α}
    (h : ∀ x ∈ xs, ∀ v, Q [D x] (f v x)) (v : Value) : Q (xs.map D) (xs.foldlM f v) := by
  induction xs generalizing v with
  | nil => exact hQ.pure v
  | cons x xs ih =>
    obtain ⟨hx, hxs⟩ := forall_mem_cons.1 h
    rw [foldlM_cons]
    exact hQ.seq (hx v) fun w => ih hxs w

end Sequencing

namespace Labelling

variable {δ : Type} {Q : List δ → ∀ {α : Type}, Gen α → Prop} (hQ : Labelling Q)
  {cond first second body : Gen Value} {p q r : List δ}

include hQ

lemma freshLabel {β : Type} {f : String → Gen β} (hf : ∀ n, Q p (f (Tac.labelName n))) :
    Q p (freshLabel >>= f) := by
  rw [freshLabel_bind]
  exact hQ.bind hQ.countLabel hf

lemma choose (hc : Q p cond) (ha : Q q first) (hb : Q r second) :
    Q (p ++ (q ++ r)) (choose cond first second) := by
  refine hQ.seq hc fun c => hQ.freshLabel fun _ => hQ.freshLabel fun _ => ?_
  refine hQ.bind (hQ.test (.inl rfl) _ _) fun _ => hQ.bind (hQ.release c) fun _ => ?_
  refine hQ.seq ha fun a => hQ.bind hQ.freshTemp fun _ => hQ.bind (hQ.move a _) fun _ => ?_
  refine hQ.bind (hQ.release a) fun _ => hQ.bind (hQ.jump _) fun _ => ?_
  refine hQ.bind (hQ.label _) fun _ => hQ.last hb fun b => ?_
  refine hQ.bind (hQ.move b _) fun _ => hQ.bind (hQ.release b) fun _ => ?_
  exact hQ.map (hQ.label _)

lemma shortcut {skip : Op} (hsk : skip = .ifz ∨ skip = .ifnz) (decided : String)
    (ha : Q p first) (hb : Q q second) : Q (p ++ q) (shortcut skip decided first second) := by
  refine hQ.bind hQ.freshTemp fun _ => hQ.freshLabel fun _ => ?_
  refine hQ.freshLabel fun _ => hQ.seq ha fun a => hQ.bind (hQ.test hsk _ _) fun _ => ?_
  refine hQ.bind (hQ.release a) fun _ => hQ.last hb fun b => hQ.bind (hQ.move b _) fun _ => ?_
  refine hQ.bind (hQ.release b) fun _ => hQ.bind (hQ.jump _) fun _ => ?_
  refine hQ.bind (hQ.label _) fun _ => hQ.bind (hQ.move _ _) fun _ => ?_
  exact hQ.map (hQ.label _)

lemma branch (hc : Q p cond) (ha : Q q first) (hb : Q r second) :
    Q (p ++ (q ++ r)) (branch cond first second) := by
  refine hQ.seq hc fun c => hQ.freshLabel fun _ => hQ.freshLabel fun _ => ?_
  refine hQ.bind (hQ.test (.inl rfl) _ _) fun _ => hQ.bind (hQ.release c) fun _ => ?_
  refine hQ.seq ha fun _ => hQ.bind (hQ.jump _) fun _ => ?_
  refine hQ.bind (hQ.label _) fun _ => hQ.last hb fun _ => ?_
  exact hQ.map (hQ.label _)

lemma loop (hc : Q p cond) (hb : Q q body) : Q (p ++ q) (loop cond body) := by
  refine hQ.freshLabel fun _ => hQ.freshLabel fun _ => ?_
  refine hQ.bind (hQ.label _) fun _ => hQ.seq hc fun c => ?_
  refine hQ.bind (hQ.test (.inl rfl) _ _) fun _ => hQ.bind (hQ.release c) fun _ => ?_
  refine hQ.last hb fun _ => hQ.bind (hQ.jump _) fun _ => ?_
  exact hQ.map (hQ.label _)

end Labelling

/-- If labels make no difference, the small steps alone remain to be shown. -/
lemma Labelling.steps {Q : List Tree → ∀ {α : Type}, Gen α → Prop} (hQ : Labelling Q)
    (hqu : Quiet Q) (hemit : ∀ {op : Op}, op.isPlain = true → ∀ (a1 a2 res : Operand)
      [a1.Shown] [a2.Shown] [res.Shown], Q [] (emit op a1 a2 res)) : Steps Q where
  toQuiet := hqu
  emit := hemit
  choose := hQ.choose
  shortcut hsk decided _ _ := hQ.shortcut hsk decided
  branch := hQ.branch
  loop := hQ.loop

variable {params : Set String} {Q : List Tree → ∀ {α : Type}, Gen α → Prop}

lemma Uniform.labelling (hQ : Uniform params Q) : Labelling Q where
  toSequencing := hQ.toSequencing
  countLabel := hQ.countLabel
  freshTemp := hQ.freshTemp
  release := hQ.release
  move _ _ := hQ.emit _ _ _ _
  test _ _ _ _ := hQ.emit _ _ _ _
  jump _ := hQ.emit _ _ _ _
  label _ := hQ.emit _ _ _ _

/-- What is said about steps that visit nothing, said about all of them. -/
lemma Uniform.still (hQ : Uniform params Q) :
    Uniform params fun _ {α : Type} (x : Gen α) => Q [] x :=
  { hQ with seq := hQ.seq, get := hQ.get }

lemma Uniform.invariant (hQ : Uniform params Q) : Invariant params Q :=
  { hQ.labelling.steps hQ.toQuiet fun _ _ _ _ => hQ.emit _ _ _ _, hQ.toQuietOuter with
    param := fun _ => hQ.emit _ _ _ _
    call := fun _ _ _ => hQ.emit _ _ _ _
    enter := hQ.emit _ _ _ _
    mark := fun _ => hQ.emit _ _ _ _
    leave := fun _ => hQ.emit _ _ _ _ }

lemma Steps.linking (hQ : Steps Q) : Linking fun is {α : Type} (x : Gen α) => Q (treesOf is) x where
  pure := hQ.pure
  seq {α β p q x f} hx hf := by
    rw [treesOf_append]
    exact hQ.seq hx hf
  freshTemp := hQ.freshTemp
  release := hQ.release
  link h _ _ _ := hQ.emit (by rcases h with rfl | rfl <;> rfl) _ _ _

lemma Invariant.calling (hQ : Invariant params Q) :
    Calling fun is {α : Type} (x : Gen α) => Q (treesOf is) x where
  toLinking := hQ.toSteps.linking
  param := hQ.param
  call _ := hQ.call

lemma visitPart_of_kid? {t : Tree} {visit : t.Sub → Gen Value} {r : Rule} {k : t.Sub}
    (hk : t.kid? r = some k) : visitPart visit (t.kid? r) = visit k := by
  rw [hk]
  rfl

/-! ### Chains -/

namespace Linking

variable {Q : List Piece → ∀ {α : Type}, Gen α → Prop} (hQ : Linking Q)

include hQ

lemma pass (hpar : ∀ v : Value, Q [] (emit .param v.operand .none .none)) (vs : List Value) :
    Q [] (pass vs) := by
  induction vs with
  | nil => exact hQ.pure ()
  | cons v vs ih =>
    rw [Gen.pass]
    exact hQ.bind (hpar _) fun _ => hQ.bind (hQ.release v) fun _ => ih

lemma readField (object : Value) (field : String) : Q [.link .getp] (readField object field) := by
  rw [Gen.readField]
  exact hQ.bind hQ.freshTemp fun n => hQ.map (hQ.link (.inl rfl) _ _ _)

lemma fieldsOf {t : Tree} (hc : t.Everywhere Complete) {parts : List t.Sub}
    (h : ∀ c ∈ parts, c.tree.Within t) (start : Value) :
    Q (fieldPieces t parts) (fieldsOf t start parts) := by
  induction parts generalizing start with
  | nil => exact hQ.pure _
  | cons s parts ih =>
    obtain ⟨hs, hr⟩ := forall_mem_cons.1 h
    rw [Gen.fieldsOf, fieldPieces]
    by_cases hfld : suffixOf s.tree = .field
    · obtain ⟨x, hx⟩ := (hc s.tree hs).exists_field hfld
      rw [if_pos hfld, hfld, tokenText, hx]
      refine hQ.bind (hQ.pure x) fun y => hQ.seq (hQ.readField start y) fun v => ?_
      exact hQ.bind (hQ.release start) fun _ => ih hr v
    · rw [if_neg hfld]
      split
      · exact absurd ‹_› hfld
      · exact ih hr start

variable {t : Tree} {visit : t.Sub → Gen Value}
  (hv : ∀ c : t.Sub, c.tree.Within t → Q [.tree c.tree] (visit c))

include hv

lemma arguments : Q ((argumentsOf t).map .tree) (arguments t visit) := by
  rw [Gen.arguments, argumentsOf]
  cases hargs : t.kid? .arguments with
  | none => exact hQ.pure []
  | some args =>
    have hlift : ((args.tree.kids .expression).map Sub.tree).map Piece.tree =
        ((args.tree.kids .expression).map args.lift).map fun c => .tree c.tree := by
      rw [map_map, map_map]
      rfl
    dsimp only
    rw [hlift]
    refine hQ.mapM (D := fun c : t.Sub => Piece.tree c.tree) fun e he => ?_
    obtain ⟨k, hk, rfl⟩ := mem_map.1 he
    exact hv _ ((Within.of_kids hk).trans (.of_kid? hargs))

/-- The object of a method that was not read from the start of the chain. -/
lemma receiver (hc : t.Everywhere Complete)
    (hpar : ∀ v : Value, Q [] (emit .param v.operand .none .none))
    {start : t.Sub} (hst : start.tree.Within t) {before : List t.Sub} (hne : before ≠ [])
    (h : ∀ c ∈ before, c.tree.Within t) (base : Value) :
    Q (.tree start.tree :: fieldPieces t before) (receiver t visit base (some start) before) := by
  cases before with
  | nil => exact absurd rfl hne
  | cons s before =>
    refine hQ.seq (hv start hst) fun v => hQ.last (hQ.fieldsOf hc h v) fun o => ?_
    exact hQ.bind (hpar _) fun _ => hQ.release o

/-- A suffix that is no call. -/
lemma suffix_of_ne_call (hc : t.Everywhere Complete) (base : Value) (start : t.Sub)
    (before : List t.Sub) (l : Link) {s : t.Sub} (hs : s.tree.Within t)
    (hca : suffixOf s.tree ≠ .call) : Q (suffixPieces t start.tree before s)
      (suffix t visit base (some start) before l s) := by
  rw [suffixPieces]
  cases hsuf : suffixOf s.tree with
  | field =>
    obtain ⟨x, hx⟩ := (hc s.tree hs).exists_field hsuf
    rw [suffix, hsuf, tokenText, hx]
    refine hQ.bind (hQ.pure x) fun y => hQ.last (hQ.readField _ y) fun v => ?_
    by_cases hba : l.value = base
    · rw [if_pos hba]
      exact hQ.pure _
    · rw [if_neg hba]
      exact hQ.map (hQ.release _)
  | call => exact absurd hsuf hca
  | index =>
    obtain ⟨k, hk⟩ := (hc s.tree hs).exists_index hsuf
    rw [suffix, hsuf, visitPart_of_kid? hk, first_eq_singleton hk]
    refine hQ.seq (hv (s.lift k) ((Within.of_kid? hk).trans hs)) fun i => ?_
    refine hQ.bind hQ.freshTemp fun n => hQ.last (hQ.link (.inr rfl) _ _ _) fun _ => ?_
    exact hQ.bind (hQ.release _) fun _ => hQ.map (hQ.release _)
  | broken =>
    rw [suffix, hsuf]
    exact hQ.pure _

end Linking

namespace Calling

variable {Q : List Piece → ∀ {α : Type}, Gen α → Prop} (hQ : Calling Q) {t : Tree}
  {visit : t.Sub → Gen Value} (hv : ∀ c : t.Sub, c.tree.Within t → Q [.tree c.tree] (visit c))
  (hc : t.Everywhere Complete)

include hQ hv hc

lemma callWith {start : t.Sub} (hst : start.tree.Within t) {before : List t.Sub}
    (h : ∀ c ∈ before, c.tree.Within t) (base : Value) (l : Link) (args : List Value)
    (site : Site) : Q (objectPieces t start.tree before ++ [.call site])
      (callWith t visit base (some start) before l args) := by
  have hfin : ∀ name result, Q [.call site] (finishCall args name result l.value) :=
    fun name result => hQ.bind (hQ.pass (fun _ => hQ.param _) args) fun _ =>
      hQ.last (hQ.call site _ _ _) fun _ => hQ.map (hQ.release _)
  refine hQ.bind hQ.freshTemp fun n => ?_
  match before with
  | [] => exact hfin _ _
  | [last] =>
    dsimp only
    split
    · exact hQ.bind (hQ.param _) fun _ => hfin _ _
    · exact hfin _ _
  | last :: k :: earlier =>
    have hear : ∀ c ∈ (k :: earlier).reverse, c.tree.Within t :=
      fun c hc => h c (.tail _ (mem_reverse.1 hc))
    rw [objectPieces]
    dsimp only
    split
    · exact hQ.seq (hQ.receiver hv hc (fun _ => hQ.param _) hst (by simp) hear base)
        fun _ => hfin _ _
    · exact hfin _ _

lemma suffix {start : t.Sub} (hst : start.tree.Within t) {before : List t.Sub}
    (h : ∀ c ∈ before, c.tree.Within t) (base : Value) (l : Link) {s : t.Sub}
    (hs : s.tree.Within t) : Q (suffixPieces t start.tree before s)
      (suffix t visit base (some start) before l s) := by
  by_cases hsuf : suffixOf s.tree = .call
  · rw [suffix_of_call hsuf, suffixPieces, hsuf]
    exact hQ.seq (hQ.arguments fun c hc => hv (s.lift c) (hc.trans hs)) fun args =>
      hQ.callWith hv hc hst h base l args _
  · exact hQ.suffix_of_ne_call hv hc base _ before l hs hsuf

lemma suffixes {start : t.Sub} (hst : start.tree.Within t) {rest : List t.Sub}
    (hr : ∀ c ∈ rest, c.tree.Within t) (base : Value) {before : List t.Sub}
    (h : ∀ c ∈ before, c.tree.Within t) (l : Link) : Q (suffixesPieces t start.tree before rest)
      (suffixes t visit base (some start) before l rest) := by
  induction rest generalizing before l with
  | nil => exact hQ.pure _
  | cons s rest ih =>
    obtain ⟨hs, hr⟩ := forall_mem_cons.1 hr
    rw [Gen.suffixes, suffixesPieces]
    exact hQ.seq (hQ.suffix hv hc hst h base l hs) fun l' =>
      ih hr (forall_mem_cons.2 ⟨hs, h⟩) l'

lemma chain (ha : ∃ k, t.kid? .primaryAtom = some k) : Q (chainPieces t) (chain t visit) := by
  obtain ⟨start, hst⟩ := ha
  have hin := Within.of_kid? hst
  rw [Gen.chain, chainPieces, first_eq_singleton hst, flatMap_singleton]
  dsimp only
  rw [hst]
  refine hQ.seq (p := [.tree start.tree]) (hv start hin) fun base => ?_
  exact hQ.suffixes hv hc hin (fun c hc => .of_kids hc) base
    (forall_mem_nil _) _

end Calling

namespace Steps

variable (hQ : Steps Q)

include hQ

lemma move (v : Value) (x : String) : Q [] (move v x) := hQ.emit rfl _ _ _

omit hQ in
/-- The operations of a chain are plain, whatever their operands are. -/
lemma isPlain_of_mem_zip {opOf : String → Op} (hop : ∀ s, (opOf s).isPlain = true)
    (ops : List String) (vs : List Value) : ∀ s ∈ (ops.map opOf).zip vs, s.1.isPlain = true := by
  intro s hs
  obtain ⟨op, -, hs⟩ := mem_map.1 (of_mem_zip hs).1
  rw [← hs]
  exact hop op

lemma applyOps {steps : List (Op × Value)} (h : ∀ s ∈ steps, s.1.isPlain = true)
    (acc : Value) : Q [] (applyOps acc steps) := by
  induction steps generalizing acc with
  | nil => exact hQ.pure acc
  | cons s steps ih =>
    rcases s with ⟨op, right⟩
    obtain ⟨hop, hr⟩ := forall_mem_cons.1 h
    rw [Gen.applyOps]
    refine hQ.bind hQ.freshTemp fun n => ?_
    refine hQ.bind (hQ.emit hop _ _ _) fun _ => ?_
    exact hQ.bind (hQ.release acc) fun _ => hQ.bind (hQ.release right) fun _ => ih hr _

lemma resultTemp : Q [] resultTemp := by
  rw [Gen.resultTemp]
  refine hQ.get (fun g h heq => by rw [heq.result]) fun g => ?_
  split
  · exact hQ.pure _
  · exact hQ.bind hQ.freshTemp fun n => hQ.map (hQ.setResult n)

variable {t : Tree} {visit : t.Sub → Gen Value}
  (hv : ∀ c : t.Sub, c.tree.Within t → Q [c.tree] (visit c))

include hv

omit hQ in
lemma visitKid {r : Rule} (h : ∃ k, t.kid? r = some k) :
    Q (t.first r) (visitPart visit (t.kid? r)) := by
  obtain ⟨k, hk⟩ := h
  rw [visitPart_of_kid? hk, first_eq_singleton hk]
  exact hv k (.of_kid? hk)

lemma visitEach (r : Rule) : Q (t.every r) (visitEach visit (t.kids r)) := by
  rw [every_eq]
  exact hQ.mapM fun k hk => hv k (.of_kids hk)

lemma visitAll : Q t.children (visitAll visit) := by
  rw [← subs_map_tree]
  exact hQ.foldlM (fun c hc _ => hv c (.of_subs hc)) _

lemma visitStatements {ks : List t.Sub} (h : ∀ c ∈ ks, c.tree.Within t) :
    Q (ks.map Sub.tree) (visitStatements t visit ks) := by
  induction ks with
  | nil => exact hQ.pure ()
  | cons c ks ih =>
    obtain ⟨hc, hr⟩ := forall_mem_cons.1 h
    rw [Gen.visitStatements]
    exact hQ.seq (hv c hc) fun _ => ih hr

/-! ### Statements -/

lemma evaluate (he : ∃ k, t.kid? .expression = some k) :
    Q (t.first .expression) (evaluate t visit) :=
  hQ.map (visitKid hv he)

lemma printStatement (he : ∃ k, t.kid? .expression = some k) :
    Q (t.first .expression) (printStatement t visit) :=
  hQ.last (visitKid hv he) fun v => hQ.bind (hQ.emit rfl _ _ _) fun _ =>
    hQ.map (hQ.release v)

lemma firstValue (x : String) : Q ((t.first .initializer).flatMap (·.first .expression))
    (firstValue t visit x) := by
  rw [Gen.firstValue]
  cases hi : t.kid? .initializer with
  | none =>
    rw [first_eq_nil hi]
    exact hQ.pure _
  | some i =>
    rw [first_eq_singleton hi, flatMap_singleton, Option.bind_some]
    cases he : i.tree.kid? .expression with
    | none =>
      rw [first_eq_nil he]
      exact hQ.pure _
    | some e =>
      have hin : (i.lift e).tree.Within t :=
        (Within.of_kid? he).trans (.of_kid? hi)
      rw [first_eq_singleton he]
      exact hQ.last (hv _ hin) fun v => hQ.bind (hQ.move v x) fun _ =>
        hQ.map (hQ.release v)

lemma declareVariable (hx : ∃ x, t.tokenText? .identifier = some x) :
    Q ((t.first .initializer).flatMap (·.first .expression)) (declareVariable t visit) := by
  obtain ⟨x, hx⟩ := hx
  rw [declareVariable_eq hx]
  exact hQ.bind (hQ.placeInFunction x) fun _ => hQ.firstValue hv x

lemma assignment : Q (partsOf t ⟨.assignment, none⟩) (assignment t visit) := by
  have hkid : ∀ k ∈ t.kids .expression, Q [k.tree] (visit k) :=
    fun k hk => hv k (.of_kids hk)
  rw [Gen.assignment, partsOf, every_eq]
  cases t.tokenText? .identifier with
  | none => exact hQ.pure _
  | some x =>
    match hks : t.kids .expression with
    | [] => exact hQ.pure _
    | [e] =>
      refine hQ.last (hkid e (by simp [hks])) fun v => hQ.bind (hQ.move v x) fun _ => ?_
      exact hQ.map (hQ.release v)
    | object :: e :: rest =>
      have hla := getLast?_eq_some_getLast (cons_ne_nil e rest)
      have hmem : (e :: rest).getLast?.getD e ∈ t.kids .expression := by
        rw [hks, hla, Option.getD_some]
        exact .tail _ (getLast_mem _)
      have hpts : ((e :: rest).map Sub.tree).getLast?.toList =
          [((e :: rest).getLast?.getD e).tree] := by
        rw [getLast?_map, hla]
        rfl
      change Q (((e :: rest).map Sub.tree).getLast?.toList ++ [object.tree]) _
      rw [hpts]
      refine hQ.seq (hkid _ hmem) fun v => ?_
      refine hQ.last (hkid object (by simp [hks])) fun o => hQ.bind (hQ.emit rfl _ _ _) fun _ => ?_
      exact hQ.bind (hQ.release v) fun _ => hQ.map (hQ.release o)

lemma functionBody : Q (t.first .block) (functionBody t visit) := by
  rw [Gen.functionBody]
  cases hb : t.kid? .block with
  | none =>
    rw [first_eq_nil hb]
    exact hQ.pure _
  | some b =>
    rw [first_eq_singleton hb]
    exact hv b (.of_kid? hb)

lemma ifStatement (he : ∃ k, t.kid? .expression = some k) (hb : ∃ k, t.kid? .block = some k) :
    Q (t.first .expression ++ (t.every .block).take 2) (ifStatement t visit) := by
  obtain ⟨c, hc⟩ := he
  obtain ⟨a, ha⟩ := hb
  obtain ⟨bs, hbs⟩ := head?_eq_some_iff.1 ha
  rw [ifStatement_eq hc ha, first_eq_singleton hc, every_eq, kidAt?, hbs]
  refine hQ.branch (hv c (.of_kid? hc)) (hv a (.of_kid? ha)) ?_
  cases bs with
  | nil => exact hQ.pure _
  | cons b bs => exact hv b (.of_kids (r := .block) (by simp [hbs]))

lemma whileStatement (he : ∃ k, t.kid? .expression = some k) (hb : ∃ k, t.kid? .block = some k) :
    Q (t.first .expression ++ t.first .block) (whileStatement t visit) := by
  obtain ⟨c, hc⟩ := he
  obtain ⟨a, ha⟩ := hb
  rw [whileStatement_eq hc ha, first_eq_singleton hc, first_eq_singleton ha]
  exact hQ.loop (hv c (.of_kid? hc)) (hv a (.of_kid? ha))

/-! ### Expressions -/

lemma assignExpr (hl : ∃ k, t.kid? .leftHandSide = some k)
    (he : ∃ k, t.kid? .assignmentExpr = some k) :
    Q (t.first .leftHandSide ++ t.first .assignmentExpr) (assignExpr t visit) := by
  refine hQ.seq (visitKid hv hl) fun target => hQ.last (visitKid hv he) fun v => ?_
  have hend : Q [] (do release v; return v : Gen Value) :=
    hQ.map (hQ.release v)
  cases target with
  | text x => exact hQ.bind (hQ.move v x) fun _ => hend
  | none => exact hend
  | temp n => exact hend

lemma propertyAssignExpr (hl : ∃ k, t.kid? .leftHandSide = some k)
    (hx : ∃ x, t.tokenText? .identifier = some x) (he : ∃ k, t.kid? .assignmentExpr = some k) :
    Q (t.first .leftHandSide ++ t.first .assignmentExpr) (Gen.propertyAssignExpr t visit) := by
  obtain ⟨x, hx⟩ := hx
  rw [Gen.propertyAssignExpr, Gen.tokenText, hx]
  refine hQ.seq (visitKid hv hl) fun o => hQ.bind (hQ.pure x) fun _ => ?_
  refine hQ.last (visitKid hv he) fun v => hQ.bind (hQ.emit rfl _ _ _) fun _ => ?_
  exact hQ.bind (hQ.release v) fun _ => hQ.map (hQ.release o)

lemma conditional (hl : ∃ k, t.kid? .logicalOrExpr = some k) :
    Q (t.first .logicalOrExpr ++
      match t.every .expression with
      | a :: b :: _ => [a, b]
      | _ => []) (ternary t visit) := by
  obtain ⟨c, hc⟩ := hl
  have hcond := hv c (.of_kid? hc)
  have hbra : ∀ k ∈ t.kids .expression, Q [k.tree] (visit k) :=
    fun k hk => hv k (.of_kids hk)
  rw [first_eq_singleton hc, every_eq]
  match hks : t.kids .expression with
  | [] =>
    rw [ternary, hks, hc]
    exact hcond
  | [_] =>
    rw [ternary, hks, hc]
    exact hcond
  | a :: b :: rest =>
    rw [ternary_eq hks hc]
    exact hQ.choose hcond (hbra a (by simp [hks])) (hbra b (by simp [hks]))

lemma operands {operand : Rule} {skip : Op} (hsk : skip = .ifz ∨ skip = .ifnz)
    (decided : String) (hl : ∃ k, t.kid? operand = some k) :
    Q ((t.every operand).take 2) (logical t visit operand skip decided) := by
  have hopd : ∀ k ∈ t.kids operand, Q [k.tree] (visit k) :=
    fun k hk => hv k (.of_kids hk)
  rw [every_eq]
  match hks : t.kids operand with
  | [] =>
    obtain ⟨k, hk⟩ := hl
    rw [kid?, hks] at hk
    cases hk
  | [a] =>
    rw [logical, hks]
    exact hopd a (by simp [hks])
  | a :: b :: rest =>
    rw [logical_eq hks]
    exact hQ.shortcut hsk decided (hopd a (by simp [hks])) (hopd b (by simp [hks]))

lemma binary (operand : Rule) {opOf : String → Op} (hop : ∀ s, (opOf s).isPlain = true) :
    Q (t.every operand) (binary t visit operand opOf) := by
  refine hQ.last (hQ.visitEach hv operand) fun vs => ?_
  split
  · exact hQ.pure _
  · exact hQ.pure _
  · exact hQ.applyOps (isPlain_of_mem_zip hop _ _) _

lemma unary (htag : t.tag?.map Tag.rule = some .unaryExpr) (hc : Complete t) :
    Q ((t.every .unaryExpr ++ t.every .primaryExpr).take 1) (unary t visit) := by
  rw [Gen.unary]
  cases he : t.kid? .unaryExpr with
  | none =>
    obtain ⟨tag, htag, hru⟩ := Option.map_eq_some_iff.1 htag
    have hnil : t.every .unaryExpr = [] := by
      rw [every_eq, head?_eq_none_iff.1 he]
      rfl
    rw [hnil, nil_append]
    exact visitKid hv (hc.exists_primary htag hru he)
  | some e =>
    obtain ⟨es, hes⟩ := head?_eq_some_iff.1 he
    rw [every_eq, hes]
    refine hQ.last (hv e (.of_kid? he)) fun v => hQ.bind hQ.freshTemp fun n => ?_
    have hend : Q [] (do release v; return Value.temp n : Gen Value) :=
      hQ.map (hQ.release v)
    dsimp only
    split
    · exact hQ.bind (hQ.emit rfl _ _ _) fun _ => hend
    · exact hQ.bind (hQ.emit rfl _ _ _) fun _ => hend
    · exact hend

lemma primary : Q ((t.every .literalExpr ++
    (t.every .leftHandSide ++ t.every .expression)).take 1) (primary t visit) := by
  rw [Gen.primary, every_eq, every_eq, every_eq, kid?, kid?, kid?,
    ← head?_append, ← head?_append, ← map_append, ← map_append]
  have hkid : ∀ k ∈ t.kids .literalExpr ++ (t.kids .leftHandSide ++ t.kids .expression),
      k.tree.Within t := by
    intro k hk
    rcases mem_append.1 hk with hk | hk
    · exact .of_kids hk
    · exact (mem_append.1 hk).elim Within.of_kids Within.of_kids
  cases hks : t.kids .literalExpr ++ (t.kids .leftHandSide ++ t.kids .expression) with
  | nil => exact hQ.pure _
  | cons k ks => exact hv k (hkid k (by simp [hks]))

/-- What holds for the code of the parts holds for the code of a node, if it does
    for those that mark places, leave functions or call them. -/
lemma tagged {tag : Tag} (htag : t.tag? = some tag) (hc : Complete t)
    (hpro : tag.rule = .program → Q ((t.every .statement).filter (!isDeclaration ·) ++
      (t.every .statement).filter isDeclaration) (program t visit))
    (hret : tag.rule = .returnStatement → Q (t.first .expression) (returnStatement t visit))
    (hfun : tag.rule = .functionDeclaration → Q (t.first .block) (declareFunction t visit))
    (hcl : tag.rule = .classDeclaration → Q (t.every .classMember) (declareClass t visit))
    (hcha : tag.rule = .leftHandSide →
      Q (t.first .primaryAtom ++ (t.every .suffixOp).flatMap suffixParts) (chain t visit))
    (hnew : tag.label = some .newExpr → Q (argumentsOf t) (newObject t visit)) :
    Q (partsOf t tag) (tagged t visit tag) := by
  have hru : ∀ {r : Rule}, [Part.rule r] ∈ requiredByRule tag.rule →
      ∃ k, t.kid? r = some k := fun h => hc.exists_kid htag (mem_required_of_rule h)
  have hlab : ∀ {r : Rule}, [Part.rule r] ∈ requiredByLabel tag.label →
      ∃ k, t.kid? r = some k := fun h => hc.exists_kid htag (mem_required_of_label h)
  have hnm : [Part.token .identifier] ∈ requiredByRule tag.rule ∨
      [Part.token .identifier] ∈ requiredByLabel tag.label →
        ∃ x, t.tokenText? .identifier = some x := fun h =>
    hc.exists_text htag (h.elim mem_required_of_rule mem_required_of_label)
  fun_cases Gen.tagged t visit tag <;> rw [partsOf] <;> try assumption
  · exact hpro rfl
  · exact hQ.declareVariable hv (hnm (.inl (by simp [requiredByRule])))
  · exact hQ.assignment hv
  · exact hQ.evaluate hv (hru (by simp [requiredByRule]))
  · exact hQ.printStatement hv (hru (by simp [requiredByRule]))
  · exact hQ.ifStatement hv (hru (by simp [requiredByRule])) (hru (by simp [requiredByRule]))
  · exact hQ.whileStatement hv (hru (by simp [requiredByRule]))
      (hru (by simp [requiredByRule]))
  · exact hret rfl
  · exact hfun rfl
  · exact hcl rfl
  · exact hQ.assignExpr hv (hlab (by simp [requiredByLabel])) (hlab (by simp [requiredByLabel]))
  · exact hQ.propertyAssignExpr hv (hlab (by simp [requiredByLabel]))
      (hnm (.inr (by simp [requiredByLabel]))) (hlab (by simp [requiredByLabel]))
  · exact visitKid hv (hlab (by simp [requiredByLabel]))
  · exact hQ.conditional hv (hlab (by simp [requiredByLabel]))
  · exact hQ.operands hv (.inr rfl) _ (hru (by simp [requiredByRule]))
  · exact hQ.operands hv (.inl rfl) _ (hru (by simp [requiredByRule]))
  · exact hQ.binary hv _ isPlain_comparisonOp
  · exact hQ.binary hv _ isPlain_comparisonOp
  · exact hQ.binary hv _ isPlain_arithmeticOp
  · exact hQ.binary hv _ isPlain_arithmeticOp
  · exact hQ.unary hv (by rw [htag]; rfl) hc
  · exact hQ.primary hv
  · exact hQ.pure _
  · exact hcha rfl
  · obtain ⟨x, hx⟩ := hnm (.inr (by simp [requiredByLabel]))
    rw [identifier_eq hx]
    exact hQ.readName x
  · exact hnew rfl
  · exact hQ.pure _
  · exact hQ.visitAll hv

end Steps

namespace Outer

variable (hQ : Outer params Q)

include hQ

/-- The jump to the end of the function at hand. -/
lemma leaveFunction :
    Q [] (do jump ((← MonadState.get).function.getD "None" ++ "_exit"); return .none : Gen Value) :=
  hQ.get (fun g h heq => by rw [heq.function]) fun _ => hQ.map (hQ.leave _)

lemma closeFunction {exit : String} (hexit : Tac.isLabelName exit = false) :
    Q [] (closeFunction exit) := by
  rw [Gen.closeFunction]
  refine hQ.bind (hQ.mark hexit) fun _ => ?_
  refine hQ.get (fun g h heq => by rw [heq.result]) fun g => ?_
  split
  · exact hQ.bind (hQ.emit rfl _ _ _) fun _ => hQ.setFunction none
  · exact hQ.bind (hQ.emit rfl _ _ _) fun _ => hQ.setFunction none

/-! ### Functions -/

lemma placeParameters {ps : List Tree} (f : String) (i : Nat)
    (hx : ∀ p ∈ ps, ∃ x ∈ params, p.tokenText? .identifier = some x) :
    Q [] (placeParameters f i ps) := by
  induction ps generalizing i with
  | nil => exact hQ.pure ()
  | cons p ps ih =>
    obtain ⟨⟨x, hpar, htx⟩, hr⟩ := forall_mem_cons.1 hx
    simp only [Gen.placeParameters, tokenText, htx, need, pure_bind]
    rw [← bind_assoc]
    exact hQ.bind (hQ.placeParameter hpar f i) fun _ => ih (i + 1) hr

lemma openFunction (hen : Q [] (emit .enter (.int 0) .none .none)) {ps : List Tree}
    (hps : ∀ p ∈ ps, ∃ x ∈ params, p.tokenText? .identifier = some x) (x : String)
    (c : Option String) {entry : String} (hent : Tac.isLabelName entry = false) (exit : String) :
    Q [] (openFunction x ps c entry exit) := by
  have hr : Q [] (do
      modify fun s => { s with frames := s.frames.ensure x }
      Gen.placeParameters x 0 ps
      emit .enter (.int 0) .none .none : Gen Unit) :=
    hQ.bind (hQ.ensureFrame x) fun _ => hQ.bind (hQ.placeParameters x 0 hps) fun _ => hen
  rw [Gen.openFunction]
  refine hQ.bind (hQ.storeLabels x _ _) fun _ => hQ.bind (hQ.mark hent) fun _ => ?_
  cases c with
  | none => exact hr
  | some c => exact hQ.bind (hQ.emit rfl _ _ _) fun _ => hr

variable {t : Tree} {visit : t.Sub → Gen Value}
  (hv : ∀ c : t.Sub, c.tree.Within t → Q [c.tree] (visit c))

include hv

lemma program : Q ((t.every .statement).filter (!isDeclaration ·) ++
    (t.every .statement).filter isDeclaration) (program t visit) := by
  have hpts : ∀ p : Tree → Bool, Q ((t.every .statement).filter p)
      (visitStatements t visit ((t.kids .statement).filter (p ·.tree))) := by
    intro p
    rw [every_eq, filter_map]
    exact hQ.visitStatements hv fun k hk => .of_kids (mem_filter.1 hk).1
  have hmk : ∀ l ∈ ["program_start", "program_end"], Q [] (label l) :=
    fun l hl => hQ.mark (by revert l; decide)
  rw [Gen.program, partition_eq_filter_filter]
  -- The declarations come last, whatever their place in the text.
  exact hQ.bind (hmk _ (by simp)) fun _ => hQ.seq (hpts _) fun _ =>
    hQ.bind (hmk _ (by simp)) fun _ => hQ.map (hpts _)

lemma returnStatement : Q (t.first .expression) (returnStatement t visit) := by
  rw [Gen.returnStatement]
  cases he : t.kid? .expression with
  | none =>
    rw [first_eq_nil he]
    exact hQ.leaveFunction
  | some e =>
    rw [first_eq_singleton he]
    refine hQ.last (hv e (.of_kid? he)) fun v => hQ.bind hQ.resultTemp fun r => ?_
    exact hQ.bind (hQ.move v _) fun _ => hQ.bind (hQ.release v) fun _ => hQ.leaveFunction

lemma declareClass (hx : ∃ x, t.tokenText? .identifier = some x) :
    Q (t.every .classMember) (declareClass t visit) := by
  obtain ⟨x, hx⟩ := hx
  rw [Gen.declareClass, Gen.tokenText, hx, every_eq]
  refine hQ.bind (hQ.pure x) fun _ => hQ.bind (hQ.setClass _) fun _ => ?_
  refine hQ.last (hQ.visitStatements hv fun c hc => .of_kids hc) fun _ => ?_
  exact hQ.map (hQ.setClass none)

lemma declareFunction (hen : Q [] (emit .enter (.int 0) .none .none))
    (hx : ∃ x, t.tokenText? .identifier = some x)
    (hps : ∀ p ∈ parametersOf t, ∃ x ∈ params, p.tokenText? .identifier = some x) :
    Q (t.first .block) (declareFunction t visit) := by
  obtain ⟨x, hx⟩ := hx
  rw [declareFunction_eq hx]
  refine hQ.bind (hQ.setFunction (some x)) fun _ => ?_
  refine hQ.get (fun g h heq => by rw [heq.inClass]) fun g => ?_
  obtain ⟨hent, hexit⟩ := isLabelName_functionLabels g.inClass x
  refine hQ.bind (hQ.openFunction hen hps x _ hent _) fun _ => ?_
  exact hQ.last (hQ.functionBody hv) fun _ => hQ.map (hQ.closeFunction hexit)

/-- What holds for the code of the parts holds for the code of a node, if it does for
    calls and for the start of a function. -/
lemma node {tag : Tag} (htag : t.tag? = some tag)
    (hc : t.Everywhere Complete) (hp : t.Everywhere (ParameterIn params))
    (hen : tag.rule = .functionDeclaration → Q [] (emit .enter (.int 0) .none .none))
    (hcha : tag.rule = .leftHandSide → (∃ k, t.kid? .primaryAtom = some k) →
      Q (t.first .primaryAtom ++ (t.every .suffixOp).flatMap suffixParts) (chain t visit))
    (hnew : tag.label = some .newExpr → (∃ x, t.tokenText? .identifier = some x) →
      Q (argumentsOf t) (newObject t visit)) : Q (partsOf t tag) (tagged t visit tag) := by
  have hru : ∀ {parts : List Part}, parts ∈ requiredByRule tag.rule → parts ∈ required tag :=
    mem_required_of_rule
  refine hQ.tagged hv htag hc.here (fun _ => hQ.program hv) (fun _ => hQ.returnStatement hv)
    (fun h => ?_) (fun h => ?_) (fun h => hcha h (hc.here.exists_kid htag (hru ?_)))
    fun h => hnew h (hc.here.exists_text htag (mem_required_of_label ?_))
  · refine hQ.declareFunction hv (hen h) (hc.here.exists_text htag (hru ?_))
      (exists_parameter hc hp)
    rw [h]
    exact .head _
  · refine hQ.declareClass hv (hc.here.exists_text htag (hru ?_))
    rw [h]
    exact .head _
  · rw [h]
    exact .head _
  · rw [h]
    exact .head _

end Outer

lemma Steps.newObject (hQ : Steps Q)
    (hca : Calling fun is {α : Type} (x : Gen α) => Q (treesOf is) x) {t : Tree}
    {visit : t.Sub → Gen Value} (hv : ∀ c : t.Sub, c.tree.Within t → Q [c.tree] (visit c))
    (hx : ∃ x, t.tokenText? .identifier = some x) : Q (argumentsOf t) (newObject t visit) := by
  obtain ⟨x, hx⟩ := hx
  rw [Gen.newObject, Gen.tokenText, hx]
  have hargs := hca.arguments hv
  rw [treesOf_map] at hargs
  refine hQ.bind (hQ.pure x) fun _ => hQ.last hargs fun args => ?_
  refine hQ.bind hQ.freshTemp fun n => hQ.bind (hQ.emit rfl _ _ _) fun _ => ?_
  refine hQ.bind (hca.param _) fun _ => ?_
  refine hQ.bind (hca.pass (fun _ => hca.param _) args) fun _ => ?_
  refine hQ.bind hQ.freshTemp fun r => hQ.bind (hca.call (.new t) _ _ _) fun _ => ?_
  exact hQ.map (hQ.release _)

/-! ### All trees -/

/-- What holds for the small steps, whatever is visited, holds for the code of every tree that lacks
    nothing, if it holds for the calls in it and for the starts of its functions. -/
lemma Outer.generate {Q : ∀ {α : Type}, Gen α → Prop}
    (hQ : Outer params fun _ {α : Type} (x : Gen α) => Q x) (t : Tree)
    (hc : t.Everywhere Complete) (hp : t.Everywhere (ParameterIn params))
    (hen : ∀ d : Tree, d.Within t → d.isOf .functionDeclaration = true →
      Q (emit .enter (.int 0) .none .none))
    (hcha : ∀ d : Tree, d.Within t → d.isOf .leftHandSide = true →
      (∃ k, d.kid? .primaryAtom = some k) →
      (∀ c : d.Sub, c.tree.Within d → Q (Compiscript.generate c.tree)) →
        Q (chain d (Compiscript.generate ·.tree)))
    (hnew : ∀ d : Tree, d.Within t → d.tag?.bind (·.label) = some .newExpr →
      (∃ x, d.tokenText? .identifier = some x) →
      (∀ c : d.Sub, c.tree.Within d → Q (Compiscript.generate c.tree)) →
        Q (newObject d (Compiscript.generate ·.tree))) : Q (Compiscript.generate t) := by
  have hv : ∀ c : t.Sub, c.tree.Within t → Q (Compiscript.generate c.tree) := fun c hin =>
    hQ.generate c.tree (hc.sub hin) (hp.sub hin) (fun d hd => hen d (hd.trans hin))
      (fun d hd => hcha d (hd.trans hin)) fun d hd => hnew d (hd.trans hin)
  rw [generate_eq]
  cases t with
  | node tag start cs =>
    exact hQ.node hv rfl hc hp (fun h => hen _ (.refl _) (beq_iff_eq.2 h))
      (fun h ha => hcha _ (.refl _) (beq_iff_eq.2 h) ha hv) fun h hx => hnew _ (.refl _) h hx hv
  | leaf tok => exact hQ.pure _
  | bad tok => exact hQ.pure _
termination_by sizeOf t
decreasing_by exact c.2

/-- What holds for the small steps holds for the code of every tree that lacks nothing. -/
lemma Invariant.generate {Q : ∀ {α : Type}, Gen α → Prop}
    (hQ : Invariant params fun _ {α : Type} (x : Gen α) => Q x) (t : Tree)
    (hc : t.Everywhere Complete) (hp : t.Everywhere (ParameterIn params)) :
    Q (Compiscript.generate t) :=
  hQ.toOuter.generate t hc hp (fun _ _ _ => hQ.enter)
    (fun _ hd _ ha hv => hQ.calling.chain hv (hc.sub hd) ha)
    fun _ _ _ hx hv => hQ.newObject hQ.calling hv hx

end Compiscript.Gen
