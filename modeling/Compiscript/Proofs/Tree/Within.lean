import Compiscript.Proofs.Codegen.Run
import Mathlib.Logic.Relation

/-!
# Trees in Trees

Which trees occur in a tree, and properties that all of them have.

A generator or a checker is given smaller trees to go on with, but what it does
go on with are always parts of the tree at hand. So a condition on all trees
that occur in a tree is handed down without a thought for the rest.

Such a condition can be evaluated: `Tree.all` walks through a tree.
-/

namespace Compiscript.Tree

open List

/-- A tree occurs in another one, or is that one. -/
def Within (c t : Tree) : Prop := Relation.ReflTransGen (fun c t => c ∈ t.children) c t

variable {c d t : Tree} {r : Rule}

lemma Within.refl (t : Tree) : t.Within t := Relation.ReflTransGen.refl

lemma Within.trans (h : c.Within d) (h' : d.Within t) : c.Within t :=
  Relation.ReflTransGen.trans h h'

lemma Within.of_mem (h : c ∈ t.children) : c.Within t := Relation.ReflTransGen.single h

/-- What occurs in a tree is the tree or occurs in a child. -/
lemma within_iff : c.Within t ↔ c = t ∨ ∃ d ∈ t.children, c.Within d := by
  rw [Within, Relation.ReflTransGen.cases_tail_iff]
  constructor
  · rintro (rfl | ⟨d, hd, hmem⟩)
    · exact .inl rfl
    · exact .inr ⟨d, hmem, hd⟩
  · rintro (rfl | ⟨d, hmem, hd⟩)
    · exact .inl rfl
    · exact .inr ⟨d, hd, hmem⟩

/-- A condition holds for all trees that occur in a tree. -/
def Everywhere (p : Tree → Prop) (t : Tree) : Prop := ∀ c, c.Within t → p c

namespace Everywhere

variable {p q : Tree → Prop}

lemma here (h : Everywhere p t) : p t := h t (.refl t)

lemma sub (h : Everywhere p t) (hc : c.Within t) : Everywhere p c :=
  fun d hd => h d (hd.trans hc)

lemma imp (h : Everywhere p t) (hpq : ∀ c, p c → q c) : Everywhere q t :=
  fun c hc => hpq c (h c hc)

end Everywhere

/-! ### Evaluation -/

mutual

/-- Whether a condition holds for all trees that occur in a tree. -/
def all (p : Tree → Bool) : Tree → Bool
  | node tag start children => p (node tag start children) && allOf p children
  | leaf t => p (leaf t)
  | bad t => p (bad t)

/-- Whether a condition holds for all trees that occur in one of several. -/
def allOf (p : Tree → Bool) : List Tree → Bool
  | [] => true
  | t :: rest => all p t && allOf p rest

end

lemma allOf_iff {p : Tree → Bool} {cs : List Tree} :
    allOf p cs = true ↔ ∀ c ∈ cs, c.all p = true := by
  induction cs with
  | nil => simp [allOf]
  | cons c cs ih => rw [allOf, Bool.and_eq_true, ih, forall_mem_cons]

lemma all_eq (p : Tree → Bool) (t : Tree) : t.all p = (p t && allOf p t.children) := by
  cases t with
  | node tag start cs => simp [all]
  | leaf t => simp [all, children, allOf]
  | bad t => simp [all, children, allOf]

lemma all_iff {p : Tree → Bool} (t : Tree) : t.all p = true ↔ t.Everywhere fun c => p c = true := by
  rw [all_eq, Bool.and_eq_true, allOf_iff]
  constructor
  · rintro ⟨hp, hall⟩ c hc
    rcases within_iff.1 hc with rfl | ⟨d, hd, hcd⟩
    · exact hp
    · exact (all_iff d).1 (hall d hd) c hcd
  · intro h
    exact ⟨h.here, fun d hd => (all_iff d).2 (h.sub (.of_mem hd))⟩
termination_by sizeOf t
decreasing_by all_goals exact sizeOf_child_lt hd

lemma everywhere_of_all {p : Tree → Prop} [DecidablePred p]
    (h : t.all (fun c => decide (p c)) = true) : t.Everywhere p :=
  fun c hc => of_decide_eq_true ((all_iff t).1 h c hc)

instance {p : Tree → Prop} [DecidablePred p] : DecidablePred (Everywhere p) := fun t =>
  decidable_of_iff (t.all (fun c => decide (p c)) = true)
    ⟨everywhere_of_all, fun h => (all_iff t).2 (h.imp fun _ => decide_eq_true)⟩

/-! ### The parts of a tree -/

variable {k : t.Sub}

lemma exists_of_isOf (h : c.isOf r = true) : ∃ l p cs, c = .node ⟨r, l⟩ p cs := by
  cases c with
  | node tag p cs =>
    cases eq_of_beq h
    exact ⟨_, _, _, rfl⟩
  | leaf | bad => cases h

lemma isOf_eq_false {q : Rule} (h : c.isOf r = true) (hne : r ≠ q) : c.isOf q = false := by
  obtain ⟨l, p, cs, rfl⟩ := exists_of_isOf h
  exact beq_eq_false_iff_ne.2 hne

lemma mem_children_of_mem_subs (h : k ∈ t.subs) : k.tree ∈ t.children := by
  rw [← subs_map_tree]
  exact mem_map_of_mem h

lemma of_mem_kids (h : k ∈ t.kids r) : k.tree ∈ t.children ∧ k.tree.isOf r = true := by
  rw [kids, mem_filter] at h
  exact ⟨mem_children_of_mem_subs h.1, h.2⟩

lemma Within.of_subs (h : k ∈ t.subs) : k.tree.Within t :=
  .of_mem (mem_children_of_mem_subs h)

lemma Within.of_kids (h : k ∈ t.kids r) : k.tree.Within t :=
  .of_mem (of_mem_kids h).1

lemma mem_kids_of_kid? (h : t.kid? r = some k) : k ∈ t.kids r :=
  mem_of_head? h

lemma of_kid? (h : t.kid? r = some k) : k.tree ∈ t.children ∧ k.tree.isOf r = true :=
  of_mem_kids (mem_kids_of_kid? h)

lemma isOf_of_kid? (h : t.kid? r = some k) : k.tree.isOf r = true :=
  (of_kid? h).2

lemma Within.of_kid? (h : t.kid? r = some k) : k.tree.Within t :=
  .of_kids (mem_kids_of_kid? h)

lemma Within.of_kidAt? {i : Nat} (h : t.kidAt? r i = some k) : k.tree.Within t :=
  .of_kids (mem_of_getElem? h)

/-- There is a part if there is a child of the right sort. -/
lemma isSome_kid? (h : ∃ c ∈ t.children, c.isOf r = true) : (t.kid? r).isSome = true := by
  obtain ⟨c, hc, hr⟩ := h
  have hmem : c ∈ t.children.filter (·.isOf r) := mem_filter.2 ⟨hc, hr⟩
  rw [← kids_map_tree] at hmem
  obtain ⟨k, hk, -⟩ := mem_map.1 hmem
  rw [kid?, isSome_head?]
  exact ne_nil_of_mem hk

/-- There is a text if there is a child of the right kind. -/
lemma isSome_tokenText? {k : Kind} (h : ∃ c ∈ t.children, c.isToken k = true) :
    (t.tokenText? k).isSome = true := by
  obtain ⟨c, hc, hk⟩ := h
  have hmem : c ∈ t.children.filter (·.isToken k) := mem_filter.2 ⟨hc, hk⟩
  rw [tokenText?, tokenTexts, head?_map, Option.isSome_map, isSome_head?]
  exact ne_nil_of_mem hmem

end Compiscript.Tree
