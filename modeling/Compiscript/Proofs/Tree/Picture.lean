import Compiscript.Tree.Picture
import Mathlib.Data.List.Perm.Basic
import Mathlib.Data.List.Range

/-!
# Pictures Determine Trees

Numbers are handed out in the order of a walk, so the boxes of a tree take up an
interval that starts with its root, and the trees below the root share the rest of
it. All arrows that start in the interval belong to the tree. So the children of a
box are where its arrows lead, in the order in which the arrows were drawn.

## Theorems

* `Tree.picture_determines_tree`: The tree can be read off its picture.
-/

namespace Compiscript

open List

/-- A tree of which only the captions are known. -/
inductive Captioned where
  | node (caption : String) (children : List Captioned)

/-- The captions in the order of a walk from the root. -/
def Captioned.preorder : Captioned → List String
  | node caption children => caption :: children.flatMap preorder

namespace Picture

/-- Where the arrows of a box lead, in the order of drawing. -/
def targets (p : Picture) (i : Nat) : List Nat := (p.arrows.filter (·.1 = i)).map (·.2)

/-- What is written into a box. -/
def captionAt (p : Picture) (i : Nat) : String := ((p.boxes.find? (·.1 = i)).map (·.2)).getD ""

/-- The tree below a box, down to a depth. -/
def rebuild (p : Picture) : (depth : Nat) → (i : Nat) → Captioned
  | 0, i => .node (p.captionAt i) []
  | depth + 1, i => .node (p.captionAt i) ((p.targets i).map (p.rebuild depth))

lemma captionAt_eq {p : Picture} (h : (p.boxes.map Prod.fst).Nodup) {b : Nat × String}
    (hb : b ∈ p.boxes) : p.captionAt b.1 = b.2 := by
  unfold captionAt
  generalize p.boxes = boxes at h hb
  induction boxes with
  | nil => cases hb
  | cons c boxes ih =>
    obtain ⟨hc, hboxes⟩ := nodup_cons.1 h
    rcases mem_cons.1 hb with rfl | hb
    · simp
    · have hne : c.1 ≠ b.1 := fun hi => hc (hi ▸ mem_map_of_mem hb)
      rw [find?_cons_of_neg (by simpa using hne)]
      exact ih hboxes hb

end Picture

namespace Tree

/-- A tree with each node replaced by its caption. -/
def captioned : Tree → Captioned
  | t@(.node _ _ children) => .node t.caption (children.map captioned)
  | t => .node t.caption []

/-- The captions of several trees in the order of a walk. -/
def captions (ts : List Tree) : List String := ts.flatMap (·.captioned.preorder)

lemma captioned_eq (t : Tree) : t.captioned = .node t.caption (t.children.map captioned) := by
  cases t <;> simp [captioned, children]

lemma preorder_captioned (t : Tree) : t.captioned.preorder = t.caption :: captions t.children := by
  rw [captioned_eq, Captioned.preorder, flatMap_map, captions]

lemma captions_cons (t : Tree) (ts : List Tree) :
    captions (t :: ts) = t.caption :: (captions t.children ++ captions ts) := by
  rw [captions, flatMap_cons, preorder_captioned]
  rfl

lemma draw_eq (next : Nat) (t : Tree) : t.draw next =
    (Picture.append ⟨[(next, t.caption)], []⟩ (drawAll next (next + 1) t.children).1,
      (drawAll next (next + 1) t.children).2) := by
  cases t <;> simp [draw, drawAll, children, Picture.append, Picture.empty]

/-- What is known about the picture of the trees below box `parent`. -/
structure Drawn (p : Picture) (parent next : Nat) (ts : List Tree) : Prop where
  /-- Boxes are numbered in the order of a walk. -/
  boxes : p.boxes = ((captions ts).zipIdx next).map Prod.swap
  /-- Every box has one arrow that leads to it. -/
  targets : (p.arrows.map Prod.snd).Perm (List.range' next (captions ts).length)
  /-- The arrow comes from a box that was drawn before. -/
  sources : ∀ a ∈ p.arrows, (a.1 = parent ∨ next ≤ a.1) ∧ a.1 < a.2
  /-- The trees are rebuilt from any picture with these boxes and arrows. -/
  rebuilt : ∀ (q : Picture) (depth : Nat), (captions ts).length ≤ depth →
    (∀ b ∈ p.boxes, q.captionAt b.1 = b.2) →
    (∀ i, next ≤ i → i < next + (captions ts).length → q.targets i = p.targets i) →
    (p.targets parent).map (q.rebuild depth) = ts.map captioned

namespace Drawn

variable {p r : Picture} {parent next : Nat} {t : Tree} {ts : List Tree}

/-- The arrows that start in a box of a tree are those of this tree. -/
lemma targets_cons (hp : Drawn p next (next + 1) t.children) (h : parent < next)
    (hr : Drawn r parent (next + 1 + (captions t.children).length) ts) (i : Nat) :
    Picture.targets ⟨(next, t.caption) :: (p.boxes ++ r.boxes),
        p.arrows ++ (parent, next) :: r.arrows⟩ i =
      if i = parent then next :: r.targets i
      else if i < next + 1 + (captions t.children).length then p.targets i else r.targets i := by
  have hf : i < next ∨ next + 1 + (captions t.children).length ≤ i →
      p.arrows.filter (·.1 = i) = [] := fun hi => filter_eq_nil_iff.2 fun a ha => by
    have hlt := hp.targets.subset (mem_map_of_mem ha)
    rw [mem_range'_1] at hlt
    have := hp.sources a ha
    simp only [decide_eq_true_eq]
    omega
  have hrs : i ≠ parent → i < next + 1 + (captions t.children).length →
      r.arrows.filter (·.1 = i) = [] := fun _ _ => filter_eq_nil_iff.2 fun a ha => by
    have := hr.sources a ha
    simp only [decide_eq_true_eq]
    omega
  simp only [Picture.targets, filter_append, map_append]
  by_cases hi : i = parent
  · simp [hi, hi ▸ hf (.inl (hi ▸ h))]
  · rw [if_neg hi, filter_cons_of_neg (by simpa using Ne.symm hi)]
    by_cases hlt : i < next + 1 + (captions t.children).length
    · rw [if_pos hlt, hrs hi hlt, map_nil, append_nil]
    · rw [if_neg hlt, hf (.inr (Nat.le_of_not_lt hlt)), map_nil, nil_append]

/-- A box with a tree below it, in front of the trees that follow. -/
lemma cons (hp : Drawn p next (next + 1) t.children) (h : parent < next)
    (hr : Drawn r parent (next + 1 + (captions t.children).length) ts) :
    Drawn ⟨(next, t.caption) :: (p.boxes ++ r.boxes), p.arrows ++ (parent, next) :: r.arrows⟩
      parent next (t :: ts) := by
  have hcount : (captions (t :: ts)).length =
      1 + ((captions t.children).length + (captions ts).length) := by
    rw [captions_cons, length_cons, length_append, Nat.add_comm]
  have htgs := targets_cons hp h hr
  constructor
  case boxes => simp [captions_cons, hp.boxes, hr.boxes, zipIdx_append]
  case targets =>
    rw [hcount, ← range'_append_1, ← range'_append_1, map_append]
    exact perm_middle.trans ((hp.targets.append hr.targets).cons next)
  case sources =>
    intro a ha
    rcases mem_append.1 ha with ha | ha
    · have := hp.sources a ha
      omega
    · rcases mem_cons.1 ha with rfl | ha
      · exact ⟨.inl rfl, h⟩
      · have := hr.sources a ha
        omega
  case rebuilt =>
    intro q depth hdepth hboxes harr
    rw [hcount] at hdepth harr
    have hown : ∀ i, next ≤ i → i < next + 1 + (captions t.children).length →
        q.targets i = p.targets i := fun i hlow hhigh => by
      rw [harr i hlow (by omega), htgs, if_neg (by omega), if_pos hhigh]
    obtain ⟨depth, rfl⟩ : ∃ d, depth = d + 1 := ⟨depth - 1, by omega⟩
    have hcs := hp.rebuilt q depth (by omega)
      (fun b hb => hboxes b (by simp [hb])) fun i _ _ => hown i (by omega) (by omega)
    have hoth := hr.rebuilt q (depth + 1) (by omega)
      (fun b hb => hboxes b (by simp [hb])) fun i _ _ => by
        rw [harr i (by omega) (by omega), htgs, if_neg (by omega), if_neg (by omega)]
    have hcap : q.captionAt next = t.caption := hboxes (next, t.caption) (by simp)
    rw [htgs, if_pos rfl, map_cons, hoth, Picture.rebuild, hown next (by omega)
      (by omega), hcs, hcap, ← captioned_eq, map_cons]

end Drawn

lemma drawn (parent next : Nat) (ts : List Tree) (h : parent < next) :
    ∃ p, drawAll parent next ts = (p, next + (captions ts).length) ∧ Drawn p parent next ts := by
  cases ts with
  | nil => exact ⟨_, rfl, rfl, .refl _, forall_mem_nil _, fun _ _ _ _ _ => rfl⟩
  | cons t rest =>
    obtain ⟨p, hp, hbelow⟩ := drawn next (next + 1) t.children (Nat.lt_succ_self next)
    obtain ⟨r, hr, hrs⟩ := drawn parent (next + 1 + (captions t.children).length) rest (by omega)
    refine ⟨_, ?_, hbelow.cons h hrs⟩
    simp only [drawAll, draw_eq, hp, hr, Picture.append, captions_cons, length_cons,
      length_append]
    simp
    omega
termination_by sizeOf ts
decreasing_by
  · cases t <;> simp [children] <;> omega
  · rw [cons.sizeOf_spec]
    omega

/-- Boxes are numbered from 0 in the order of a walk, every box but the first is the target of
    one arrow, which comes from a smaller number, and the tree that the arrows and captions
    make up is the tree of the captions. -/
theorem picture_determines_tree (t : Tree) :
    t.picture.boxes = (t.captioned.preorder.zipIdx).map Prod.swap ∧
      t.picture.arrows.length + 1 = t.picture.boxes.length ∧
      (t.picture.arrows.map Prod.snd).Perm (List.range' 1 (t.picture.boxes.length - 1)) ∧
      (∀ a ∈ t.picture.arrows, a.1 < a.2) ∧
      t.picture.rebuild t.picture.boxes.length 0 = t.captioned := by
  obtain ⟨q, hq, hdrawn⟩ := drawn 0 1 t.children Nat.zero_lt_one
  have hpic : t.picture = ⟨(0, t.caption) :: q.boxes, q.arrows⟩ := by
    rw [picture, draw_eq, hq]
    rfl
  have hboxes : t.picture.boxes = t.captioned.preorder.zipIdx.map Prod.swap := by
    simp [hpic, preorder_captioned, hdrawn.boxes]
  have hlen : t.picture.boxes.length = (captions t.children).length + 1 := by
    rw [hboxes, List.length_map, List.length_zipIdx, preorder_captioned, List.length_cons]
  have hfind : ∀ b ∈ t.picture.boxes, t.picture.captionAt b.1 = b.2 := fun b hb => by
    refine Picture.captionAt_eq ?_ hb
    rw [hboxes, List.map_map, show Prod.fst ∘ Prod.swap = Prod.snd from rfl, List.zipIdx_map_snd]
    exact List.nodup_range'
  have hcs := hdrawn.rebuilt t.picture _ (Nat.le_refl _)
    (fun b hb => hfind b (by simp [hpic, hb])) fun i _ _ => by rw [hpic]; rfl
  rw [hlen]
  refine ⟨hboxes, ?_, ?_, ?_, ?_⟩
  · simpa [hpic] using hdrawn.targets.length_eq
  · rw [hpic]
    exact hdrawn.targets
  · rw [hpic]
    exact fun a ha => (hdrawn.sources a ha).2
  · have hcap := hfind (0, t.caption) (by simp [hpic])
    have htgs : t.picture.targets 0 = q.targets 0 := by rw [hpic]; rfl
    rw [captioned_eq, ← hcs, Picture.rebuild, hcap, htgs]

end Tree

end Compiscript
