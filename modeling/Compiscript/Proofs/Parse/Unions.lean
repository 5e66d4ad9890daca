import Compiscript.Parse.Stacks

/-!
# Members of Sets of Stacks

What pushing and merging does to the members of a set.

The union of two sets has the members of both if the whole stack is known. If it is not, it may
have fewer, but then a shorter one stands for each that is gone.
-/

namespace Compiscript.Stacks

variable {a b below others set : Stacks} {f : Nat} {fs s rs : List Nat} {any x : Bool}

theorem has_nil : Has (.nil x) s ↔ x = true ∧ s = [] := by
  constructor
  · rintro ⟨⟩
    exact ⟨rfl, rfl⟩
  · rintro ⟨rfl, rfl⟩
    exact .empty

@[simp] theorem has_empty : Has empty s ↔ s = [] := by
  rw [empty, has_nil]
  exact and_iff_right rfl

theorem has_cons {h : UInt64} :
    Has (.cons h f below others) s ↔ (∃ s', s = f :: s' ∧ Has below s') ∨ Has others s := by
  constructor
  · rintro (_ | hs | hs)
    · exact .inl ⟨_, rfl, hs⟩
    · exact .inr hs
  · rintro (⟨s', rfl, hs⟩ | hs)
    · exact .here hs
    · exact .there hs

theorem has_mk : Has (mk f below others) s ↔ (∃ s', s = f :: s' ∧ Has below s') ∨ Has others s :=
  has_cons

theorem has_pushAll : Has (pushAll fs set) s ↔ ∃ s', s = fs ++ s' ∧ Has set s' := by
  induction fs generalizing s with
  | nil => exact ⟨fun h => ⟨s, rfl, h⟩, fun ⟨_, hs, h⟩ => hs ▸ h⟩
  | cons f fs ih =>
    rw [pushAll, List.foldr_cons, push, has_mk, ← pushAll]
    constructor
    · rintro (⟨s', rfl, hs⟩ | hs)
      · obtain ⟨t, rfl, ht⟩ := ih.1 hs
        exact ⟨t, rfl, ht⟩
      · cases hs
    · rintro ⟨t, rfl, ht⟩
      exact .inl ⟨fs ++ t, rfl, ih.2 ⟨t, rfl, ht⟩⟩

theorem has_ofList : Has (ofList fs) s ↔ s = fs := by
  rw [ofList, has_pushAll]
  simp

theorem has_nil_of_hasEmpty (h : set.hasEmpty = true) : Has set [] := by
  induction set with
  | nil x => exact has_nil.2 ⟨h, rfl⟩
  | cons _ _ _ _ _ ih => exact .there (ih h)

theorem has_of_merge (h : Has (merge any a b) s) : Has a s ∨ Has b s := by
  fun_induction merge any a b generalizing s with
  | case1 => exact .inl h
  | case2 a b _ hemp =>
    rw [has_empty] at h
    subst h
    rw [Bool.and_eq_true, Bool.or_eq_true] at hemp
    exact hemp.2.imp has_nil_of_hasEmpty has_nil_of_hasEmpty
  | case3 x y =>
    rw [has_nil, Bool.or_eq_true] at h
    obtain ⟨h, rfl⟩ := h
    exact h.imp (fun h => has_nil.2 ⟨h, rfl⟩) fun h => has_nil.2 ⟨h, rfl⟩
  | case4 _ _ _ _ _ _ _ ih | case7 _ _ _ _ _ _ _ _ _ _ _ _ ih =>
    rcases has_mk.1 h with hs | hs
    · exact .inr (has_cons.2 (.inl hs))
    · exact (ih hs).imp id .there
  | case5 _ _ _ _ _ _ _ ih | case6 _ _ _ _ _ _ _ _ _ _ _ ih =>
    rcases has_mk.1 h with hs | hs
    · exact .inl (has_cons.2 (.inl hs))
    · exact (ih hs).imp .there id
  | case8 h1 f p o h2 f' p' o' _ _ hle hge ihp iho =>
    obtain rfl : f = f' := by omega
    rcases has_mk.1 h with ⟨s, rfl, hs⟩ | hs
    · exact (ihp hs).imp .here .here
    · exact (iho hs).imp .there .there

/-- A stack is a member, or begins with a member that stands for any stack that does. -/
def Covers (any : Bool) (set : Stacks) (rs : List Nat) : Prop :=
  ∃ s rest, Has set s ∧ rs = s ++ rest ∧ (any = false → rest = [])

theorem Has.covers (h : Has set s) : Covers any set s :=
  ⟨s, [], h, (List.append_nil s).symm, fun _ => rfl⟩

theorem covers_false : Covers false set rs ↔ Has set rs := by
  constructor
  · rintro ⟨s, rest, hs, rfl, hr⟩
    rw [hr rfl, List.append_nil]
    exact hs
  · exact Has.covers

theorem Covers.pushAll (h : Covers any set rs) (fs : List Nat) :
    Covers any (set.pushAll fs) (fs ++ rs) := by
  obtain ⟨s, rest, hs, rfl, hr⟩ := h
  exact ⟨fs ++ s, rest, has_pushAll.2 ⟨s, rfl, hs⟩, (List.append_assoc _ _ _).symm, hr⟩

theorem Covers.mono (h : Covers any a rs) (himp : ∀ s, Has a s → Has b s) : Covers any b rs := by
  obtain ⟨s, rest, hs, hr⟩ := h
  exact ⟨s, rest, himp s hs, hr⟩

theorem covers_merge_of_has (h : Has a s ∨ Has b s) : Covers any (merge any a b) s := by
  fun_induction merge any a b generalizing s with
  | case1 => exact (h.elim id id).covers
  | case2 a b _ hemp =>
    refine ⟨[], s, has_empty.2 rfl, rfl, fun hany => ?_⟩
    rw [hany] at hemp
    cases hemp
  | case3 x y =>
    refine Has.covers ?_
    rcases h with h | h
    · obtain ⟨rfl, rfl⟩ := has_nil.1 h
      exact .empty
    · obtain ⟨rfl, rfl⟩ := has_nil.1 h
      rw [Bool.or_true]
      exact .empty
  | case4 _ _ _ _ _ _ _ ih | case7 _ _ _ _ _ _ _ _ _ _ _ _ ih =>
    rcases h with h | h
    · exact (ih (.inl h)).mono fun _ => .there
    · rcases has_cons.1 h with hs | hs
      · exact (has_mk.2 (.inl hs)).covers
      · exact (ih (.inr hs)).mono fun _ => .there
  | case5 _ _ _ _ _ _ _ ih | case6 _ _ _ _ _ _ _ _ _ _ _ ih =>
    rcases h with h | h
    · rcases has_cons.1 h with hs | hs
      · exact (has_mk.2 (.inl hs)).covers
      · exact (ih (.inl hs)).mono fun _ => .there
    · exact (ih (.inr h)).mono fun _ => .there
  | case8 h1 f p o h2 f' p' o' _ _ hle hge ihp iho =>
    obtain rfl : f = f' := by omega
    -- The stacks with this innermost frame are united below it.
    have hhere : ∀ {s}, Has p s ∨ Has p' s →
        Covers any (mk f (merge any p p') (merge any o o')) (f :: s) := by
      intro s hs
      obtain ⟨t, rest, ht, rfl, hr⟩ := ihp hs
      exact ⟨f :: t, rest, .here ht, rfl, hr⟩
    rcases h with h | h
    · rcases has_cons.1 h with ⟨s, rfl, hs⟩ | hs
      · exact hhere (.inl hs)
      · exact (iho (.inl hs)).mono fun _ => .there
    · rcases has_cons.1 h with ⟨s, rfl, hs⟩ | hs
      · exact hhere (.inr hs)
      · exact (iho (.inr hs)).mono fun _ => .there

theorem covers_merge (h : Covers any a rs ∨ Covers any b rs) : Covers any (merge any a b) rs := by
  obtain ⟨s, rest, hs, rfl, hr⟩ : ∃ s rest, (Has a s ∨ Has b s) ∧ rs = s ++ rest ∧
      (any = false → rest = []) := by
    rcases h with ⟨s, rest, hs, hrs⟩ | ⟨s, rest, hs, hrs⟩
    · exact ⟨s, rest, .inl hs, hrs⟩
    · exact ⟨s, rest, .inr hs, hrs⟩
  obtain ⟨t, more, ht, rfl, hmore⟩ := @covers_merge_of_has a b s any hs
  refine ⟨t, more ++ rest, ht, List.append_assoc _ _ _, fun hany => ?_⟩
  rw [hmore hany, hr hany]
  rfl

theorem merge_self (a : Stacks) : merge any a a = a := by
  unfold merge
  exact if_pos rfl

end Compiscript.Stacks
