import Compiscript.Proofs.Codegen.Invariant
import Compiscript.Proofs.Core.Admission

/-!
# Labels That Are Made Up

The labels `L0`, `L1` and so on of generated code are in order: each one that
was made up stands in one place, and what jumps to one of them jumps to one that
was made up.

A label is made up some time before it is put into its place, and in between
code is generated that makes up labels of its own. So a piece of code in the
middle of a node is not in order. The code of a whole node is, and so it is what
the induction goes over: its labels are those with the numbers that were used up
meanwhile.

## Theorems

* `Gen.local_labels_in_order`: Labels that are made up are in order.
-/

namespace Compiscript

open List hiding get modify

namespace Tac

open Compiscript.Core (Labels)

/-- Where an instruction may lead: to a label that was made up with a number
    from `m` up to `n`, or to the end of a function. -/
structure Targets (m n : Nat) (i : Instr) : Prop where
  label (h : i.op = .label) : ∃ l, i.a1 = .text l
  branch (h : i.op = .ifz ∨ i.op = .ifnz) : ∃ j, m ≤ j ∧ j < n ∧ i.res = .text (labelName j)
  jump (h : i.op = .jump) : (∃ j, m ≤ j ∧ j < n ∧ i.a1 = .text (labelName j)) ∨
    ∃ f, i.a1 = .text (f ++ "_exit")

namespace Targets

variable {m m' n n' : Nat} {i : Instr}

lemma mono (h : Targets m n i) (hm : m' ≤ m) (hn : n ≤ n') : Targets m' n' i where
  label := h.label
  branch hop := by
    obtain ⟨j, hmj, hjn, hres⟩ := h.branch hop
    exact ⟨j, by omega, by omega, hres⟩
  jump hop := by
    rcases h.jump hop with ⟨j, hmj, hjn, ha⟩ | hexit
    · exact .inl ⟨j, by omega, by omega, ha⟩
    · exact .inr hexit

lemma of_isPlain (h : i.op.isPlain = true) : Targets m n i where
  label hop := by rw [hop] at h; cases h
  branch hop := by rcases hop with hop | hop <;> (rw [hop] at h; cases h)
  jump hop := by rw [hop] at h; cases h

lemma of_label (l : String) : Targets m n (.of .label (.text l) .none .none) where
  label _ := ⟨l, rfl⟩
  branch hop := by rcases hop with hop | hop <;> cases hop
  jump hop := by cases hop

variable {op : Op} {j : Nat}

lemma of_branch (hop : op = .ifz ∨ op = .ifnz) (a : Operand) (hm : m ≤ j)
    (hn : j < n) : Targets m n (.of op a .none (.text (labelName j))) where
  label h := by rcases hop with rfl | rfl <;> cases h
  branch _ := ⟨j, hm, hn, rfl⟩
  jump h := by rcases hop with rfl | rfl <;> cases h

lemma of_jump (hm : m ≤ j) (hn : j < n) :
    Targets m n (.of .jump (.text (labelName j)) .none .none) where
  label h := by cases h
  branch h := by rcases h with h | h <;> cases h
  jump _ := .inl ⟨j, hm, hn, rfl⟩

lemma of_call (hop : op = .param ∨ op = .call ∨ op = .enter) (a1 a2 res : Operand) :
    Targets m n (.of op a1 a2 res) where
  label h := by rcases hop with rfl | rfl | rfl <;> cases h
  branch h := by rcases hop with rfl | rfl | rfl <;> rcases h with h | h <;> cases h
  jump h := by rcases hop with rfl | rfl | rfl <;> cases h

lemma of_exit (f : String) : Targets m n (.of .jump (.text (f ++ "_exit")) .none .none) where
  label h := by cases h
  branch h := by rcases h with h | h <;> cases h
  jump _ := .inr ⟨f, rfl⟩

end Targets

/-! ### Labels of code -/

lemma isLabelName_labelName (n : Nat) : isLabelName (labelName n) = true := by
  have hlist : (labelName n).toList = 'L' :: (toString n).toList := by
    rw [labelName, String.toList_append]
    rfl
  rw [isLabelName, hlist]
  change (decimal? (toString n).toList).isSome = true
  rw [decimal?_toList_toString]
  rfl

/-- The places of a piece of code whose names look made up. -/
def madeUp (code : List Instr) : List String := (labelsOf code).filter isLabelName

@[simp] lemma madeUp_nil : madeUp [] = [] := rfl

@[simp] lemma madeUp_append (a b : List Instr) : madeUp (a ++ b) = madeUp a ++ madeUp b := by
  rw [madeUp, labelsOf_append, filter_append]
  rfl

@[simp] lemma madeUp_cons_of_ne {op : Op} (h : op ≠ .label) (a1 a2 res : Operand)
    (code : List Instr) : madeUp (.of op a1 a2 res :: code) = madeUp code := by
  rw [madeUp, labelsOf_cons_of_none, madeUp]
  cases op <;> first | rfl | exact absurd rfl h

@[simp] lemma madeUp_cons_label (n : Nat) (code : List Instr) :
    madeUp (.of .label (.text (labelName n)) .none .none :: code) = labelName n :: madeUp code := by
  change (labelName n :: labelsOf code).filter isLabelName = _
  rw [filter_cons_of_pos (isLabelName_labelName n)]
  rfl

lemma madeUp_cons_mark {l : String} (h : isLabelName l = false) (code : List Instr) :
    madeUp (.of .label (.text l) .none .none :: code) = madeUp code := by
  change (l :: labelsOf code).filter isLabelName = _
  rw [filter_cons_of_neg (by simp [h])]
  rfl

/-- Code whose made-up labels are those with the numbers from `m` up to `n`, each
    of them in one place, and that leads to no others. -/
structure Sealed (m n : Nat) (code : List Instr) : Prop where
  labels : Labels m n (madeUp code)
  targets : ∀ i ∈ code, Targets m n i

namespace Sealed

variable {m n n' : Nat} {a b : List Instr}

lemma nil (n : Nat) : Sealed n n [] := ⟨.nil n, by simp⟩

lemma le (h : Sealed m n a) : m ≤ n := h.labels.le

lemma mem_wider (ha : Sealed m n a) {m' : Nat} (hm : m' ≤ m) (hn : n ≤ n') :
    ∀ i ∈ a, Targets m' n' i :=
  fun i hi => (ha.targets i hi).mono hm hn

lemma append (ha : Sealed m n a) (hb : Sealed n n' b) : Sealed m n' (a ++ b) where
  labels := by
    rw [madeUp_append]
    exact ha.labels.append hb.labels
  targets := by
    rw [forall_mem_append]
    exact ⟨ha.mem_wider (Nat.le_refl m) hb.le, hb.mem_wider ha.le (Nat.le_refl n')⟩

/-- An instruction that marks no place of its own. -/
lemma single {i : Instr} (hlabs : madeUp [i] = []) (htgs : Targets n n i) : Sealed n n [i] := by
  refine ⟨?_, by simpa using htgs⟩
  rw [hlabs]
  exact .nil n

/-- Two labels that were made up before those of other code. -/
lemma pair (ha : Sealed (n + 2) m a) (hb : Sealed m n' b) {code : List Instr}
    (hcode : ∀ l, (madeUp code).count l =
      [labelName n, labelName (n + 1)].count l + (madeUp a).count l + (madeUp b).count l)
    (htgs : n + 2 ≤ m → m ≤ n' → ∀ i ∈ code, Targets n n' i) : Sealed n n' code := by
  refine ⟨(ha.labels.append hb.labels).pair.of_perm (perm_iff_count.2 fun l => ?_),
    htgs ha.le hb.le⟩
  rw [hcode l, Nat.add_assoc, ← count_append, ← count_append]
  rfl

section Shapes

variable (ha : Sealed (n + 2) m a) (hb : Sealed m n' b)

include ha hb

/-- The code of a choice, without that of its condition. -/
lemma choose (c x y r : Operand) :
    Sealed n n' (.of .ifz c .none (.text (labelName n)) :: (a ++ .of .mov x .none r ::
      .of .jump (.text (labelName (n + 1))) .none .none ::
      .of .label (.text (labelName n)) .none .none :: (b ++ [.of .mov y .none r,
      .of .label (.text (labelName (n + 1))) .none .none]))) := by
  refine pair ha hb (fun l => by simp [count_cons]; omega) fun hm hn => ?_
  simp only [forall_mem_cons, forall_mem_append]
  exact ⟨.of_branch (.inl rfl) c (Nat.le_refl n) (by omega), ha.mem_wider (by omega) hn,
    .of_isPlain rfl, .of_jump (by omega) (by omega), .of_label _,
    hb.mem_wider (by omega) (Nat.le_refl n'), .of_isPlain rfl, .of_label _,
    forall_mem_nil _⟩

/-- The code of two operands, the second of which may be skipped. -/
lemma shortcut {skip : Op} (hsk : skip = .ifz ∨ skip = .ifnz) (x y z r : Operand) :
    Sealed n n' (a ++ .of skip x .none (.text (labelName n)) :: (b ++ [.of .mov y .none r,
      .of .jump (.text (labelName (n + 1))) .none .none,
      .of .label (.text (labelName n)) .none .none, .of .mov z .none r,
      .of .label (.text (labelName (n + 1))) .none .none])) := by
  have hne : skip ≠ .label := by rcases hsk with rfl | rfl <;> decide
  refine pair ha hb (fun l => by simp [hne, count_cons]; omega) fun hm hn => ?_
  simp only [forall_mem_cons, forall_mem_append]
  exact ⟨ha.mem_wider (by omega) hn, .of_branch hsk x (Nat.le_refl n) (by omega),
    hb.mem_wider (by omega) (Nat.le_refl n'), .of_isPlain rfl,
    .of_jump (by omega) (by omega), .of_label _, .of_isPlain rfl, .of_label _,
    forall_mem_nil _⟩

/-- The code of two ways to go on, without that of the condition. -/
lemma branch (c : Operand) : Sealed n n' (.of .ifz c .none (.text (labelName n)) :: (a ++
      .of .jump (.text (labelName (n + 1))) .none .none ::
      .of .label (.text (labelName n)) .none .none ::
      (b ++ [.of .label (.text (labelName (n + 1))) .none .none]))) := by
  refine pair ha hb (fun l => by simp [count_cons]; omega) fun hm hn => ?_
  simp only [forall_mem_cons, forall_mem_append]
  exact ⟨.of_branch (.inl rfl) c (Nat.le_refl n) (by omega), ha.mem_wider (by omega) hn,
    .of_jump (by omega) (by omega), .of_label _, hb.mem_wider (by omega) (Nat.le_refl n'),
    .of_label _, forall_mem_nil _⟩

lemma loop (c : Operand) : Sealed n n' (.of .label (.text (labelName n)) .none .none :: (a ++
      .of .ifz c .none (.text (labelName (n + 1))) :: (b ++
      [.of .jump (.text (labelName n)) .none .none,
      .of .label (.text (labelName (n + 1))) .none .none]))) := by
  refine pair ha hb (fun l => by simp [count_cons]; omega) fun hm hn => ?_
  simp only [forall_mem_cons, forall_mem_append]
  exact ⟨.of_label _, ha.mem_wider (by omega) hn, .of_branch (.inl rfl) c (by omega) (by omega),
    hb.mem_wider (by omega) (Nat.le_refl n'), .of_jump (Nat.le_refl n) (by omega), .of_label _,
    forall_mem_nil _⟩

end Shapes

end Sealed

/-- The labels of a program, of which `k` were made up, are in order. -/
structure InOrder (k : Nat) (code : List Instr) : Prop where
  text : ∀ i ∈ code, i.op = .label → ∃ l, i.a1 = .text l
  count : ∀ j < k, (labelsOf code).count (labelName j) = 1
  only : ∀ l ∈ labelsOf code, isLabelName l = true → ∃ j < k, l = labelName j
  branch : ∀ i ∈ code, i.op = .ifz ∨ i.op = .ifnz → ∃ j < k, i.res = .text (labelName j)
  jump : ∀ i ∈ code, i.op = .jump →
    (∃ j < k, i.a1 = .text (labelName j)) ∨ ∃ f, i.a1 = .text (f ++ "_exit")

lemma Sealed.inOrder {k : Nat} {code : List Instr} (h : Sealed 0 k code) : InOrder k code where
  text i hi := (h.targets i hi).label
  count j hj := by
    have hmem : labelName j ∈ madeUp code :=
      h.labels.perm.mem_iff.2 (mem_map.2 ⟨j, mem_range'_1.2 (by omega), rfl⟩)
    rw [← count_filter (p := isLabelName) (isLabelName_labelName j)]
    exact count_eq_one_of_mem h.labels.nodup hmem
  only l hl hnm := by
    have hmem : l ∈ madeUp code := mem_filter.2 ⟨hl, hnm⟩
    obtain ⟨j, hj, rfl⟩ := mem_map.1 (h.labels.perm.mem_iff.1 hmem)
    have hrange := mem_range'_1.1 hj
    exact ⟨j, by omega, rfl⟩
  branch i hi hop := by
    obtain ⟨j, -, hj, hres⟩ := (h.targets i hi).branch hop
    exact ⟨j, hj, hres⟩
  jump i hi hop := by
    rcases (h.targets i hi).jump hop with ⟨j, -, hj, ha⟩ | hexit
    · exact .inl ⟨j, hj, ha⟩
    · exact .inr hexit

end Tac

namespace Gen

open Tac

/-! ### The code that is added -/

/-- A step comes to its end, and the count of labels after it and the code that
    it adds are as they should be. -/
def Adds {α : Type} (x : Gen α) (g : Generator) (P : Nat → List Instr → Prop) : Prop :=
  ∃ code a g', Gives x g a g' ∧ g'.code = g.code ++ code ∧ P g'.labels code

/-- Steps whose code is in order. -/
def Seals {α : Type} (x : Gen α) : Prop := ∀ g, Adds x g (Sealed g.labels)

namespace Adds

variable {α β : Type} {x : Gen α} {f : α → Gen β} {g : Generator} {P : Nat → List Instr → Prop}

lemma pure {a : α} (h : P g.labels []) : Adds (Pure.pure a) g P :=
  ⟨[], a, g, .pure a g, (append_nil _).symm, h⟩

lemma after {code : List Instr} {a : α} {g' : Generator} (hx : Gives x g a g')
    (hcode : g'.code = g.code ++ code)
    (hf : Adds (f a) g' fun n code' => P n (code ++ code')) : Adds (x >>= f) g P := by
  obtain ⟨code', b, g'', hgv, hcode', hP⟩ := hf
  refine ⟨code ++ code', b, g'', hx.bind hgv, ?_, hP⟩
  rw [hcode', hcode, append_assoc]

lemma emit {f : Unit → Gen β} {op : Op} {a1 a2 res : Operand}
    (hf : Adds (f ()) { g with code := g.code ++ [.of op a1 a2 res] }
      fun n code => P n (.of op a1 a2 res :: code)) : Adds (emit op a1 a2 res >>= f) g P :=
  after (a := ()) rfl rfl hf

lemma freshLabel {f : String → Gen β}
    (hf : Adds (f (labelName g.labels)) { g with labels := g.labels + 1 } P) :
    Adds (freshLabel >>= f) g P :=
  after rfl (append_nil _).symm hf

lemma freshTemp {f : Int → Gen β}
    (hf : Adds (f g.temps.get.1) { g with temps := g.temps.get.2 } P) :
    Adds (freshTemp >>= f) g P :=
  after rfl (append_nil _).symm hf

lemma release {f : Unit → Gen β} {v : Value}
    (hf : Adds (f ()) { g with temps := g.temps.giveBack v } P) :
    Adds (Gen.release v >>= f) g P := by
  have hgv : Gives (Gen.release v) g () { g with temps := g.temps.giveBack v } := by
    cases v <;> rfl
  exact after hgv (append_nil _).symm hf

lemma seals (hx : Seals x) (hf : ∀ code a g', Sealed g.labels g'.labels code →
    Adds (f a) g' fun n code' => P n (code ++ code')) : Adds (x >>= f) g P := by
  obtain ⟨code, a, g', hgv, hcode, hsea⟩ := hx g
  exact after hgv hcode (hf code a g' hsea)

end Adds

/-- A step that comes to its end and has nothing to do with code. The pool keeps its history. -/
def Silent {α : Type} (x : Gen α) : Prop :=
  ∀ g, ∃ a g', Gives x g a g' ∧ g'.code = g.code ∧ g'.labels = g.labels ∧
    g.temps.history <+: g'.temps.history

namespace Silent

variable {α β : Type} {x : Gen α} {f : α → Gen β}

lemma pure (a : α) : Silent (Pure.pure a : Gen α) := fun g =>
  ⟨a, g, .pure a g, rfl, rfl, prefix_rfl⟩

lemma bind (hx : Silent x) (hf : ∀ a, Silent (f a)) : Silent (x >>= f) := by
  intro g
  obtain ⟨a, g', hgv, hcode, hlabs, hpool⟩ := hx g
  obtain ⟨b, g'', hgv', hcode', hlabels', hpool'⟩ := hf a g'
  exact ⟨b, g'', hgv.bind hgv', hcode'.trans hcode, hlabels'.trans hlabs,
    hpool.trans hpool'⟩

lemma get : Silent (MonadState.get : Gen Generator) := fun g =>
  ⟨g, g, rfl, rfl, rfl, prefix_rfl⟩

lemma modify {f : Generator → Generator} (hcode : ∀ g, (f g).code = g.code)
    (hlabs : ∀ g, (f g).labels = g.labels) (hpool : ∀ g, (f g).temps = g.temps) :
    Silent (modify f : Gen Unit) :=
  fun g => ⟨(), f g, rfl, hcode g, hlabs g, by rw [hpool]⟩

lemma freshTemp : Silent freshTemp := fun g =>
  ⟨_, _, rfl, rfl, rfl, _, g.temps.history_get.symm⟩

lemma release (v : Value) : Silent (release v) := fun g =>
  ⟨(), { g with temps := g.temps.giveBack v }, by cases v <;> rfl, rfl, rfl,
    g.temps.history_giveBack v⟩

lemma resolve? (x : String) : Silent (resolve? x) := get.bind fun _ => pure _

lemma store (sym : Symbol) : Silent (store sym) :=
  modify (fun _ => rfl) (fun _ => rfl) fun _ => rfl

lemma place (add : Frame → Symbol → Frame × Symbol) (f x : String) (sym : Option Symbol) :
    Silent (place add f x sym) := by
  unfold Gen.place
  refine get.bind fun g => ?_
  refine bind (modify (fun _ => rfl) (fun _ => rfl) fun _ => rfl) fun _ => ?_
  split
  · exact store _
  · exact pure ()

lemma readName (x : String) : Silent (readName x) := by
  rw [Gen.readName]
  refine get.bind fun g => ?_
  split
  · refine (resolve? x).bind fun sym => ?_
    split
    · exact pure _
    · exact pure _
  · exact pure _

lemma placeInFunction (x : String) : Silent (placeInFunction x) := by
  rw [Gen.placeInFunction]
  refine get.bind fun g => ?_
  split
  · exact (resolve? x).bind fun sym => place _ _ _ _
  · exact pure ()

lemma storeLabels (x entry exit : String) : Silent (storeLabels x entry exit) := by
  rw [Gen.storeLabels]
  refine (resolve? x).bind fun sym => ?_
  split
  · exact store _
  · exact pure ()

lemma seals (h : Silent x) : Seals x := by
  intro g
  obtain ⟨a, g', hx, hcode, hlabs, -⟩ := h g
  refine ⟨[], a, g', hx, by rw [hcode, append_nil], ?_⟩
  rw [hlabs]
  exact .nil g.labels

/-- What holds for steps that have nothing to do with code holds for those that set something up. -/
lemma quietOuter {Q : List Tree → ∀ {α : Type}, Gen α → Prop} (hseq : Sequencing Q)
    (hget : ∀ {β : Type} {p : List Tree} {k : Generator → Gen β}, (∀ g, Q p (k g)) →
      Q p (MonadState.get >>= k))
    (hQ : ∀ {α : Type} {x : Gen α}, Silent x → Q [] x) : QuietOuter Set.univ Q where
  toSequencing := hseq
  get _ h := hget h
  freshTemp := hQ .freshTemp
  release v := hQ (.release v)
  setResult _ := hQ (.modify (fun _ => rfl) (fun _ => rfl) fun _ => rfl)
  readName x := hQ (.readName x)
  placeInFunction x := hQ (.placeInFunction x)
  setFunction _ := hQ (.modify (fun _ => rfl) (fun _ => rfl) fun _ => rfl)
  setClass _ := hQ (.modify (fun _ => rfl) (fun _ => rfl) fun _ => rfl)
  ensureFrame _ := hQ (.modify (fun _ => rfl) (fun _ => rfl) fun _ => rfl)
  placeParameter _ _ _ := hQ ((Silent.resolve? _).bind fun _ => .place _ _ _ _)
  storeLabels x entry exit := hQ (.storeLabels x entry exit)

end Silent

/-! ### Code in order -/

namespace Seals

lemma bind {α β : Type} {x : Gen α} {f : α → Gen β} (hx : Seals x) (hf : ∀ a, Seals (f a)) :
    Seals (x >>= f) := by
  refine fun g => .seals hx fun code a g' hcode => ?_
  obtain ⟨code', b, g'', hgv, hadds, hcode'⟩ := hf a g'
  exact ⟨code', b, g'', hgv, hadds, hcode.append hcode'⟩

/-- One instruction that marks no place of its own. -/
lemma emit {op : Op} {a1 a2 res : Operand} (hlabs : madeUp [.of op a1 a2 res] = [])
    (htgs : ∀ n, Targets n n (.of op a1 a2 res)) : Seals (emit op a1 a2 res) :=
  fun g => ⟨_, (), _, rfl, rfl, .single hlabs (htgs g.labels)⟩

variable {cond first second body : Gen Value}

lemma choose (hc : Seals cond) (ha : Seals first) (hb : Seals second) :
    Seals (choose cond first second) := by
  refine fun g => .seals hc fun kc c g1 hkc => ?_
  refine .freshLabel (.freshLabel (.emit (.release (.seals ha fun ka a g2 hka => ?_))))
  refine .freshTemp (.emit (.release (.emit (.emit (.seals hb fun kb b g3 hkb => ?_)))))
  refine .emit (.release (.emit (.pure ?_)))
  exact hkc.append (hka.choose hkb _ _ _ _)

lemma shortcut {skip : Op} (hsk : skip = .ifz ∨ skip = .ifnz) (decided : String)
    (ha : Seals first) (hb : Seals second) : Seals (shortcut skip decided first second) := by
  refine fun g => .freshTemp (.freshLabel (.freshLabel (.seals ha fun ka a g1 hka => ?_)))
  refine .emit (.release (.seals hb fun kb b g2 hkb => ?_))
  refine .emit (.release (.emit (.emit (.emit (.emit (.pure ?_))))))
  exact hka.shortcut hkb hsk _ _ _ _

lemma branch (hc : Seals cond) (ha : Seals first) (hb : Seals second) :
    Seals (branch cond first second) := by
  refine fun g => .seals hc fun kc c g1 hkc => ?_
  refine .freshLabel (.freshLabel (.emit (.release (.seals ha fun ka a g2 hka => ?_))))
  refine .emit (.emit (.seals hb fun kb b g3 hkb => ?_))
  refine .emit (.pure ?_)
  exact hkc.append (hka.branch hkb _)

lemma loop (hc : Seals cond) (hb : Seals body) : Seals (loop cond body) := by
  refine fun g => .freshLabel (.freshLabel (.emit (.seals hc fun kc c g1 hkc => ?_)))
  refine .emit (.release (.seals hb fun kb b g2 hkb => ?_))
  refine .emit (.emit (.pure ?_))
  exact hkc.loop hkb _

/-- Every small step adds code in order. -/
lemma invariant : Invariant Set.univ fun _ {α : Type} (x : Gen α) => Seals x where
  toQuietOuter := Silent.quietOuter ⟨fun a => (Silent.pure a).seals, bind⟩
    (fun h => bind Silent.get.seals h) Silent.seals
  emit h a1 a2 res _ _ _ := by
    refine emit (madeUp_cons_of_ne ?_ a1 a2 res []) fun n => .of_isPlain h
    rintro rfl
    cases h
  param _ := emit (madeUp_cons_of_ne (by decide) _ _ _ []) fun n => .of_call (by simp) _ _ _
  call a1 a2 res := emit (madeUp_cons_of_ne (by decide) a1 a2 res []) fun n =>
    .of_call (by simp) a1 a2 res
  enter := emit (madeUp_cons_of_ne (by decide) _ _ _ []) fun n => .of_call (by simp) _ _ _
  mark h := emit (madeUp_cons_mark h []) fun n => .of_label _
  leave f := emit (madeUp_cons_of_ne (by decide) _ _ _ []) fun n => .of_exit f
  choose := choose
  shortcut hsk decided _ _ ha hb := shortcut hsk decided ha hb
  branch := branch
  loop := loop

end Seals

/-- The generator comes to its end on a text without syntax errors. -/
lemma sealed_run {source : String} (symbols : Option (Table String Symbol))
    (hparse : (parse source).errors = []) :
    ∃ v g, Generator.run (parse source).tree (.start symbols) = (.ok v, g) ∧
      Sealed 0 g.labels g.code := by
  have hseals : Seals (generate (parse source).tree) :=
    Seals.invariant.generate _ (complete_of_derives (derives_of_parse hparse))
      fun _ _ _ _ _ => trivial
  obtain ⟨code, v, g, hgv, hcode, hsea⟩ := hseals (.start symbols)
  obtain rfl : g.code = code := hcode.trans (nil_append code)
  exact ⟨v, g, hgv, hsea⟩

/-- A text without syntax errors has code, whatever is known about its symbols, and the labels in it
    are in order. Those that were made up stand in one place each, no other label looks like them,
    and what may jump leads to one of them or, if it jumps in any case, to the end of a function. -/
theorem local_labels_in_order (source : String) (symbols : Option (Table String Symbol))
    (hparse : (parse source).errors = []) :
    ∃ v g, Generator.run (parse source).tree (.start symbols) = (.ok v, g) ∧
      InOrder g.labels g.code := by
  obtain ⟨v, g, hrun, hsea⟩ := sealed_run symbols hparse
  exact ⟨v, g, hrun, hsea.inOrder⟩

/-- A loop with a choice in it, which makes up six labels. -/
theorem local_labels_in_order_countdown :
    ∃ v g, Generator.run (parse Core.countdown).tree (.start none) = (.ok v, g) ∧
      InOrder g.labels g.code := by
  have hall := Core.countdown_admitted
  rw [Bool.and_eq_true, Bool.and_eq_true, List.isEmpty_iff] at hall
  exact local_labels_in_order Core.countdown none hall.1.1

end Gen

end Compiscript
