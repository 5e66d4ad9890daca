import Compiscript.Proofs.Codegen.Resolver

/-!
# Trees That Are Visited

Which trees code is made for, and that this code is there in the end.

A step is graded by the trees that it visits. Since code is only added, the code of a
tree that was visited is still there when all is done.

## Main definitions

* `Gen.Met`: A tree is visited when another one is.
* `Gen.Since`, `Gen.Later`: States that may come one after the other.
* `Gen.Between`: Code was made for a tree between two states.

## Theorems

* `Gen.visits_parts`: What a node visits.
* `Gen.between_of_met`: The code of all that is met is there in the end.
-/

namespace Compiscript.Gen

open List hiding get modify

/-- The parts of a tree that are visited. -/
def parts (t : Tree) : List Tree :=
  match t.tag? with
  | some tag => partsOf t tag
  | none => []

/-- A tree is visited when another one is. -/
inductive Met (d : Tree) : Tree → Prop where
  | here : Met d d
  | part {t c : Tree} (hc : c ∈ parts t) (h : Met d c) : Met d t

/-! ### Steps -/

variable {params : Set String}

/-- A state that may come after another one: code was only added, and the pool has seen all that
    it had seen before, and maybe more. -/
structure Since (g g' : Generator) : Prop where
  code : g.code <+: g'.code
  history : g.temps.history <+: g'.temps.history

lemma Since.refl (g : Generator) : Since g g := ⟨prefix_rfl, prefix_rfl⟩

lemma Since.trans {g g' g'' : Generator} (h : Since g g') (h' : Since g' g'') : Since g g'' :=
  ⟨h.code.trans h'.code, h.history.trans h'.history⟩

/-- The same, and if no parameter was found among the symbols, none is found now. -/
structure Later (params : Set String) (g g' : Generator) : Prop extends Since g g' where
  plain (h : Plain params g) : Plain params g'

lemma Later.refl (g : Generator) : Later params g g := ⟨.refl g, id⟩

lemma Later.trans {g g' g'' : Generator} (h : Later params g g') (h' : Later params g' g'') :
    Later params g g'' :=
  ⟨h.toSince.trans h'.toSince, fun hg => h'.plain (h.plain hg)⟩

/-- Code was made for a tree between two states. -/
def Between (params : Set String) (g : Generator) (d : Tree) (g' : Generator) : Prop :=
  ∃ v h h', Later params g h ∧ Gives (generate d) h v h' ∧ Later params h' g'

lemma Between.widen {g0 g g' g1 : Generator} {d : Tree} (h : Between params g d g')
    (hg : Later params g0 g) (hg' : Later params g' g1) : Between params g0 d g1 := by
  obtain ⟨v, k, k', hk, hgv, hk'⟩ := h
  exact ⟨v, k, k', hg.trans hk, hgv, hk'.trans hg'⟩

/-- A step that visits certain trees on its way, if it comes to its end. -/
def Visits (params : Set String) (ds : List Tree) {α : Type} (x : Gen α) : Prop :=
  ∀ g a g', Gives x g a g' → Later params g g' ∧ ∀ d ∈ ds, Between params g d g'

namespace Visits

variable {α β : Type} {x : Gen α} {f : α → Gen β} {ds es : List Tree}

lemma pure (a : α) : Visits params [] (Pure.pure a) := by
  intro g b g' h
  obtain ⟨-, rfl⟩ := h.unique (.pure a g)
  exact ⟨.refl g', forall_mem_nil _⟩

lemma bind (hx : Visits params ds x) (hf : ∀ a, Visits params es (f a)) :
    Visits params (ds ++ es) (x >>= f) := by
  intro g b g'' h
  obtain ⟨a, g', hgv, hgv'⟩ := h.of_bind
  obtain ⟨hlat, hds⟩ := hx g a g' hgv
  obtain ⟨hlater', hes⟩ := hf a g' b g'' hgv'
  refine ⟨hlat.trans hlater', forall_mem_append.2 ⟨fun d hd => ?_, fun d hd => ?_⟩⟩
  · exact (hds d hd).widen (.refl g) hlater'
  · exact (hes d hd).widen hlat (.refl g'')

lemma of_subset (h : Visits params ds x) (hsub : es ⊆ ds) : Visits params es x := by
  intro g a g' hgv
  obtain ⟨hlat, hds⟩ := h g a g' hgv
  exact ⟨hlat, fun d hd => hds d (hsub hd)⟩

lemma of_gives {r : Generator → α} {s : Generator → Generator} (h : ∀ g, Gives x g (r g) (s g))
    (hlat : ∀ g, Later params g (s g)) : Visits params [] x := by
  intro g a g' hgv
  obtain ⟨-, rfl⟩ := hgv.unique (h g)
  exact ⟨hlat g, forall_mem_nil _⟩

/-- A step that adds no code and marks no parameter. -/
lemma of_silent (h : Silent x) {b : α} (hhid : Hidden params x b) : Visits params [] x := by
  intro g a g' hgv
  refine ⟨⟨?_, fun hg => ?_⟩, forall_mem_nil _⟩
  · obtain ⟨c, g1, hgives1, hcode, -, hpool⟩ := h g
    obtain ⟨-, rfl⟩ := hgv.unique hgives1
    exact ⟨by rw [hcode], hpool⟩
  · obtain ⟨g1, hgives1, -, hpl⟩ := hhid g hg
    obtain ⟨-, rfl⟩ := hgv.unique hgives1
    exact hpl

lemma modify {s : Generator → Generator} (hlat : ∀ g, Later params g (s g)) :
    Visits params [] (modify s : Gen Unit) :=
  of_gives (r := fun _ => ()) (fun _ => rfl) hlat

lemma uniform : Uniform params (Visits params) where
  pure := pure
  seq := bind
  get _ h := (of_gives (fun _ => rfl) Later.refl).bind h
  emit op a1 a2 res := modify fun g => ⟨⟨prefix_append _ _, prefix_rfl⟩, id⟩
  countLabel := of_gives (fun _ => rfl) fun g => ⟨⟨prefix_rfl, prefix_rfl⟩, id⟩
  freshTemp := of_gives (fun _ => rfl) fun g => ⟨⟨prefix_rfl, _, g.temps.history_get.symm⟩, id⟩
  release v := by
    cases v with
    | temp n => exact modify fun g => ⟨⟨prefix_rfl, prefix_append _ _⟩, id⟩
    | text s => exact pure ()
    | none => exact pure ()
  setFunction f := modify fun g => ⟨⟨prefix_rfl, prefix_rfl⟩, id⟩
  setResult n := modify fun g => ⟨⟨prefix_rfl, prefix_rfl⟩, id⟩
  setClass c := modify fun g => ⟨⟨prefix_rfl, prefix_rfl⟩, id⟩
  ensureFrame f := modify fun g => ⟨⟨prefix_rfl, prefix_rfl⟩, id⟩
  readName x := of_silent (.readName x) (.readName x)
  placeInFunction x := of_silent (.placeInFunction x) (.placeInFunction x)
  placeParameter hx f i := of_silent ((Silent.resolve? _).bind fun sym => .place _ _ _ _)
    (.placeParameter hx f i)
  storeLabels x entry exit := of_silent (.storeLabels x entry exit) (.storeLabels x entry exit)

end Visits

/-! ### Trees -/

section Tree

variable {t : Tree} (hc : t.Everywhere Complete) (hp : t.Everywhere (ParameterIn params))

include hc hp

lemma visits_self : Visits params [t] (generate t) := by
  intro g v g' hgv
  obtain ⟨hlat, -⟩ := Visits.uniform.still.invariant.generate t hc hp g v g' hgv
  refine ⟨hlat, forall_mem_singleton.2 ?_⟩
  exact ⟨v, g, g', .refl g, hgv, .refl g'⟩

lemma visits_parts : Visits params (parts t) (generate t) := by
  have hv : ∀ c : t.Sub, c.tree.Within t → Visits params [c.tree] (generate c.tree) :=
    fun c hin => visits_self (hc.sub hin) (hp.sub hin)
  have hI := (Visits.uniform : Uniform params _).invariant
  rw [generate_eq]
  cases t with
  | node tag start cs =>
    refine hI.node hv rfl hc hp (fun _ => hI.enter) (fun _ ha => ?_)
      fun _ hx => hI.newObject hI.calling hv hx
    -- What is visited once more was visited before.
    exact (hI.calling.chain hv hc ha).of_subset (subset_chainPieces _ ha)
  | leaf tok => exact .pure _
  | bad tok => exact .pure _

end Tree

variable {t : Tree}

lemma within_of_mem_parts {c : Tree} (h : c ∈ parts t) : c.Within t := by
  unfold parts at h
  split at h
  · exact within_of_mem_partsOf h
  · cases h

/-- The code of all that is met is there in the end. -/
lemma between_of_met {d : Tree} (hmet : Met d t) (hc : t.Everywhere Complete)
    (hp : t.Everywhere (ParameterIn params)) {g g' : Generator} {v : Value}
    (hgv : Gives (generate t) g v g') : Between params g d g' := by
  induction hmet generalizing g g' v with
  | here => exact ⟨v, g, g', .refl g, hgv, .refl g'⟩
  | part hmem _ ih =>
    have hin := within_of_mem_parts hmem
    obtain ⟨w, h, h', hbef, hpt, hafter⟩ := (visits_parts hc hp g v g' hgv).2 _ hmem
    exact (ih (hc.sub hin) (hp.sub hin) hpt).widen hbef hafter

end Compiscript.Gen
