import Compiscript.Mips.Registers
import Mathlib.Data.Finset.Card

/-!
# Who Has Which Register

At any time the variables that have a register have one each, and the two tables
say the same. A request that finds a free register takes it. If there is none,
the first register goes over from its holder to the new variable, and no other
variable notices.

## Theorems

* `Mips.Registers.requests_share_registers`: As long as there are no more variables than
  registers, every variable gets a register of its own and keeps it.
-/

namespace Compiscript

open List

namespace Table

variable {κ α : Type} [DecidableEq κ]

lemma contains_eq_isSome (t : Table κ α) (k : κ) : t.contains k = (t.get? k).isSome := by
  rw [contains, get?, Option.isSome_map, Bool.eq_iff_iff, find?_isSome, any_eq_true]

lemma get?_erase (t : Table κ α) (k k' : κ) :
    (t.erase k).get? k' = if k' = k then none else t.get? k' := by
  unfold get? erase
  rw [find?_filter]
  split
  · rename_i h
    rw [find?_eq_none.2 (by simp [h]), Option.map_none]
  · rename_i h
    congr 2
    funext e
    by_cases he : e.1 = k' <;> simp [he, h]

end Table

namespace Mips

namespace Registers

/-- Some of the names have a register, no two of them the same one. -/
structure Within (rs : Registers) (names : Finset String) : Prop where
  holds {r : Reg} {x : String} :
    rs.holder.get? r = some x ↔ rs.ofVariable.get? (some x) = some r
  mem {x : String} {r : Reg} (h : rs.ofVariable.get? (some x) = some r) :
    x ∈ names ∧ r ∈ Reg.forVariables

/-- A table that has every variable of another one, in the same register. -/
def Extends (rs rs' : Registers) : Prop :=
  ∀ x r, rs.ofVariable.get? (some x) = some r → rs'.ofVariable.get? (some x) = some r

lemma Extends.refl (rs : Registers) : rs.Extends rs := fun _ _ h => h

variable {rs : Registers} {r : Reg} {x : String}

lemma Extends.trans {rs' rs'' : Registers} (h : rs.Extends rs') (h' : rs'.Extends rs'') :
    rs.Extends rs'' :=
  fun x r hx => h' x r (h x r hx)

/-- A variable is in the register it has asked for. -/
lemma get?_take (rs : Registers) (x : Option String) :
    (rs.take x).2.ofVariable.get? x = some (rs.take x).1 := by
  unfold take
  split
  · assumption
  · split
    · exact Table.get?_set_self _ _ _
    · exact Table.get?_set_self _ _ _

lemma isFree_iff : rs.isFree r = true ↔ rs.holder.get? r = none := by
  rw [isFree, Table.contains_eq_isSome]
  cases rs.holder.get? r <;> simp

lemma within_empty (names : Finset String) : empty.Within names where
  holds := by
    intro r x
    constructor <;> intro h <;> cases h
  mem h := nomatch h

/-! ### Handing over -/

/-- A register goes to a variable, whoever held it. -/
def give (rs : Registers) (x : String) (r : Reg) : Registers := (rs.evict r).assign (some x) r

lemma give_of_isFree (h : rs.isFree r = true) (x : String) :
    rs.give x r = rs.assign (some x) r := by
  rw [give, evict, isFree_iff.1 h]

/-- The register that a new variable gets. -/
def next (rs : Registers) : Reg := rs.firstFree?.getD victim

lemma next_mem (rs : Registers) : rs.next ∈ Reg.forVariables := by
  rw [next]
  cases hfree : rs.firstFree? with
  | none => decide
  | some r => exact mem_of_find?_eq_some hfree

lemma take_of_get? (h : rs.ofVariable.get? (some x) = some r) : rs.take (some x) = (r, rs) := by
  rw [take, h]

lemma take_of_new (h : rs.ofVariable.get? (some x) = none) :
    rs.take (some x) = (rs.next, rs.give x rs.next) := by
  rw [take, h, next]
  cases hfree : rs.firstFree? with
  | none => rfl
  | some r => rw [Option.getD_some, give_of_isFree (find?_some hfree)]

lemma get?_holder_give (rs : Registers) (x : String) (r q : Reg) :
    (rs.give x r).holder.get? q = if q = r then some x else rs.holder.get? q := by
  have hset : (rs.give x r).holder = rs.holder.set r x := by
    unfold give evict
    split <;> rfl
  rw [hset]
  split
  · rename_i hq
    rw [hq, Table.get?_set_self]
  · rename_i hq
    exact Table.get?_set_of_ne _ (Ne.symm hq) _

lemma get?_give (rs : Registers) (x y : String) (r : Reg) :
    (rs.give x r).ofVariable.get? (some y) =
      if y = x then some r else if rs.holder.get? r = some y then none
      else rs.ofVariable.get? (some y) := by
  split
  · rename_i hy
    rw [hy]
    exact Table.get?_set_self _ _ _
  · rename_i hy
    have hne : some x ≠ some y := fun he => hy (Option.some.inj he).symm
    rw [give, evict, assign, Table.get?_set_of_ne _ hne]
    cases hold : rs.holder.get? r with
    | none => rfl
    | some z =>
      change (rs.ofVariable.erase (some z)).get? (some y) = _
      rw [Table.get?_erase]
      simp only [Option.some.injEq, eq_comm]

/-- All registers are held by variables. -/
def Full (rs : Registers) : Prop := ∀ r ∈ Reg.forVariables, rs.holder.get? r ≠ none

/-- A request takes no register away while one is free. -/
lemma extends_take (hfull : ¬rs.Full) (x : String) : rs.Extends (rs.take (some x)).2 := by
  intro y r hy
  cases hget : rs.ofVariable.get? (some x) with
  | some q => rwa [take_of_get? hget]
  | none =>
    obtain ⟨p, hp, hno⟩ : ∃ p ∈ Reg.forVariables, rs.holder.get? p = none := by
      simpa [Full] using hfull
    obtain ⟨q, hq⟩ :=
      Option.isSome_iff_exists.1 (find?_isSome.2 ⟨p, hp, isFree_iff.2 hno⟩)
    have hnx : rs.next = q := by rw [next, firstFree?, hq, Option.getD_some]
    have hq := isFree_iff.1 (find?_some hq)
    rw [take_of_new hget, hnx, get?_give, hq]
    grind

namespace Within

variable {rs : Registers} {names : Finset String} {x : String}

/-- No two variables share a register. -/
lemma injective (h : rs.Within names) {y : String}
    (hx : rs.ofVariable.get? (some x) = some r) (hy : rs.ofVariable.get? (some y) = some r) :
    x = y := by
  have hr := h.holds.2 hx
  rw [h.holds.2 hy] at hr
  injection hr with hr
  exact hr.symm

/-- Variables that hold all registers are at least as many. -/
lemma sixteen_le (h : rs.Within names) (hfull : rs.Full) : 16 ≤ names.card := by
  have hheld : ∀ r ∈ Reg.forVariables, ∃ y, rs.ofVariable.get? (some y) = some r := fun r hr =>
    (Option.ne_none_iff_exists'.1 (hfull r hr)).imp fun _ => h.holds.1
  choose! y hy using hheld
  have hsix : Reg.forVariables.toFinset.card = 16 := by decide
  rw [← hsix]
  refine Finset.card_le_card_of_injOn y (fun r hr => ?_) fun r hr r' hr' heq => ?_
  · exact Finset.mem_coe.2 (h.mem (hy r (mem_toFinset.1 hr))).1
  · have h1 := hy r (mem_toFinset.1 hr)
    rw [heq, hy r' (mem_toFinset.1 hr')] at h1
    exact (Option.some.inj h1).symm

lemma not_full (h : rs.Within names) (hcr : names.card ≤ 16) (hx : x ∈ names)
    (hnew : rs.ofVariable.get? (some x) = none) : ¬rs.Full := by
  intro hfull
  -- Then each of the sixteen is held by a variable other than this one.
  have hoth : rs.Within (names.erase x) := by
    refine ⟨h.holds, fun {y r} hy => ⟨Finset.mem_erase.2 ⟨?_, (h.mem hy).1⟩, (h.mem hy).2⟩⟩
    rintro rfl
    rw [hnew] at hy
    cases hy
  have hle := hoth.sixteen_le hfull
  have herase := Finset.card_erase_of_mem hx
  have hpos := Finset.card_pos.2 ⟨x, hx⟩
  omega

lemma give (h : rs.Within names) (hx : x ∈ names)
    (hnew : rs.ofVariable.get? (some x) = none) (hr : r ∈ Reg.forVariables) :
    (rs.give x r).Within names where
  holds {q y} := by
    have hq := h.holds (r := q) (x := y)
    have hry := h.holds (r := r) (x := y)
    rw [get?_holder_give, get?_give]
    grind
  mem {y q} hy := by
    rw [get?_give] at hy
    split at hy
    · rename_i hyx
      exact ⟨hyx ▸ hx, Option.some.inj hy ▸ hr⟩
    · split at hy
      · cases hy
      · exact h.mem hy

/-- A request leaves every register to one variable. -/
lemma next (h : rs.Within names) (hx : x ∈ names) : (rs.take (some x)).2.Within names := by
  cases hget : rs.ofVariable.get? (some x) with
  | some r => rwa [take_of_get? hget]
  | none =>
    rw [take_of_new hget]
    exact h.give hx hget rs.next_mem

/-- While there are enough registers, a request takes none away. -/
lemma take (h : rs.Within names) (hcr : names.card ≤ 16) (hx : x ∈ names) :
    (rs.take (some x)).2.Within names ∧ rs.Extends (rs.take (some x)).2 ∧
      (rs.take (some x)).2.ofVariable.get? (some x) = some (rs.take (some x)).1 := by
  refine ⟨h.next hx, ?_, rs.get?_take _⟩
  cases hget : rs.ofVariable.get? (some x) with
  | some r =>
    rw [take_of_get? hget]
    exact .refl rs
  | none => exact extends_take (h.not_full hcr hx hget) x

end Within

/-! ### Requests one after the other -/

/-- The registers after several requests. -/
def takeAll (rs : Registers) (xs : List String) : Registers :=
  xs.foldl (fun rs x => (rs.take (some x)).2) rs

lemma takeAll_append (rs : Registers) (xs ys : List String) :
    rs.takeAll (xs ++ ys) = (rs.takeAll xs).takeAll ys := foldl_append

variable {rs : Registers} {names : Finset String} {xs : List String}

lemma Within.takeAll (h : rs.Within names) (hxs : ∀ x ∈ xs, x ∈ names) :
    (rs.takeAll xs).Within names := by
  induction xs generalizing rs with
  | nil => exact h
  | cons x xs ih =>
    obtain ⟨hx, hxs⟩ := forall_mem_cons.1 hxs
    exact ih (h.next hx) hxs

lemma Within.extends_takeAll (h : rs.Within names) (hcr : names.card ≤ 16)
    (hxs : ∀ x ∈ xs, x ∈ names) : rs.Extends (rs.takeAll xs) := by
  induction xs generalizing rs with
  | nil => exact .refl rs
  | cons x xs ih =>
    obtain ⟨hx, hxs⟩ := forall_mem_cons.1 hxs
    obtain ⟨hin, hext, -⟩ := h.take hcr hx
    exact hext.trans (ih hin hxs)

lemma Full.next_eq (h : rs.Full) : rs.next = victim := by
  have hno : rs.firstFree? = none :=
    find?_eq_none.2 fun r hr hfree => h r hr (isFree_iff.1 hfree)
  rw [next, hno, Option.getD_none]

/-- Once all registers are held, only the first one changes hands. -/
lemma Full.take (h : rs.Full) (x : String) : (rs.take (some x)).2.Full ∧
    ∀ r, r ≠ victim → (rs.take (some x)).2.holder.get? r = rs.holder.get? r := by
  cases hget : rs.ofVariable.get? (some x) with
  | some r =>
    rw [take_of_get? hget]
    exact ⟨h, fun _ _ => rfl⟩
  | none =>
    rw [take_of_new hget, h.next_eq]
    refine ⟨fun r hr => ?_, fun r hr => by rw [get?_holder_give, if_neg hr]⟩
    rw [get?_holder_give]
    split
    · exact nofun
    · exact h r hr

lemma Full.takeAll (h : rs.Full) (xs : List String) : (rs.takeAll xs).Full ∧
    ∀ r, r ≠ victim → (rs.takeAll xs).holder.get? r = rs.holder.get? r := by
  induction xs generalizing rs with
  | nil => exact ⟨h, fun _ _ => rfl⟩
  | cons x xs ih =>
    obtain ⟨hfull, hkeeps⟩ := h.take x
    obtain ⟨hfull', hkeeps'⟩ := ih hfull
    exact ⟨hfull', fun r hr => (hkeeps' r hr).trans (hkeeps r hr)⟩

/-- While a register is free, every variable that was asked for is still in one. -/
lemma extends_takeAll_of_not_full (h : ¬(rs.takeAll xs).Full) :
    rs.Extends (rs.takeAll xs) ∧ ∀ x ∈ xs, (rs.takeAll xs).ofVariable.get? (some x) ≠ none := by
  induction xs generalizing rs with
  | nil => exact ⟨.refl rs, forall_mem_nil _⟩
  | cons x xs ih =>
    have hfull : ¬rs.Full := fun hfull => h ((hfull.take x).1.takeAll xs).1
    obtain ⟨hext, hxs⟩ := ih h
    refine ⟨(extends_take hfull x).trans hext, forall_mem_cons.2 ⟨?_, hxs⟩⟩
    change ((rs.take (some x)).2.takeAll xs).ofVariable.get? (some x) ≠ none
    rw [hext x _ (rs.get?_take _)]
    exact nofun

/-- All registers are held once sixteen variables have been asked for, and not before. -/
lemma full_takeAll_iff (xs : List String) : (empty.takeAll xs).Full ↔ 16 ≤ xs.toFinset.card := by
  have hin : (empty.takeAll xs).Within xs.toFinset :=
    (within_empty _).takeAll fun _ => mem_toFinset.2
  refine ⟨hin.sixteen_le, fun hcr => by_contra fun hnot => ?_⟩
  obtain ⟨q, hq, hno⟩ : ∃ q ∈ Reg.forVariables, (empty.takeAll xs).holder.get? q = none := by
    simpa [Full] using hnot
  have hmap : ∀ x ∈ xs, ∃ r, (empty.takeAll xs).ofVariable.get? (some x) = some r :=
    fun x hx => Option.ne_none_iff_exists'.1 ((extends_takeAll_of_not_full hnot).2 x hx)
  choose! r hr using hmap
  -- The variables are in different registers, and in none that is free.
  have hle : xs.toFinset.card ≤ (Reg.forVariables.toFinset.erase q).card := by
    refine Finset.card_le_card_of_injOn r (fun x hx => ?_) fun x hx y hy heq => ?_
    · have hx := hr x (mem_toFinset.1 hx)
      refine Finset.mem_coe.2 (Finset.mem_erase.2 ⟨?_, mem_toFinset.2 (hin.mem hx).2⟩)
      rintro rfl
      rw [hin.holds.2 hx] at hno
      cases hno
    · exact hin.injective (hr x (mem_toFinset.1 hx)) (heq ▸ hr y (mem_toFinset.1 hy))
  have hfifteen : (Reg.forVariables.toFinset.erase q).card = 15 := by
    rw [Finset.card_erase_of_mem (mem_toFinset.2 hq)]
    decide
  omega

/-- Whatever variables are asked for, the two tables are inverse to each other, and a variable is in
    the register that it is given. While there have been no more than sixteen variables, each is
    always in the same register. Once there were sixteen, and not before, all registers are held.
    From then on a variable that has none gets the first one from its holder, and the variables in
    the others stay there, whatever is asked for. -/
theorem requests_share_registers (xs : List String) :
    (∀ r x, (empty.takeAll xs).holder.get? r = some x ↔
      (empty.takeAll xs).ofVariable.get? (some x) = some r) ∧
    (∀ x r, (empty.takeAll xs).ofVariable.get? (some x) = some r → r ∈ Reg.forVariables ∧
      ∀ y, (empty.takeAll xs).ofVariable.get? (some y) = some r → y = x) ∧
    (∀ x, ((empty.takeAll xs).take (some x)).2.ofVariable.get? (some x) =
      some ((empty.takeAll xs).take (some x)).1) ∧
    ((empty.takeAll xs).Full ↔ 16 ≤ xs.toFinset.card) ∧
    (∀ x ys, (xs ++ x :: ys).toFinset.card ≤ 16 →
      ((empty.takeAll (xs ++ x :: ys)).take (some x)).1 =
        ((empty.takeAll xs).take (some x)).1) ∧
    ((empty.takeAll xs).Full →
      (∀ ys, (empty.takeAll (xs ++ ys)).Full ∧ ∀ y r, r ≠ victim →
        (empty.takeAll xs).ofVariable.get? (some y) = some r →
          (empty.takeAll (xs ++ ys)).ofVariable.get? (some y) = some r) ∧
      ∀ x, (empty.takeAll xs).ofVariable.get? (some x) = none →
        ((empty.takeAll xs).take (some x)).1 = victim ∧
        ∃ old, (empty.takeAll xs).holder.get? victim = some old ∧
          ∀ y, ((empty.takeAll xs).take (some x)).2.ofVariable.get? (some y) =
            if y = x then some victim else if y = old then none
            else (empty.takeAll xs).ofVariable.get? (some y)) := by
  have hin : ∀ zs, (empty.takeAll zs).Within zs.toFinset := fun zs =>
    (within_empty _).takeAll fun _ => List.mem_toFinset.2
  have h := hin xs
  refine ⟨fun _ _ => h.holds, fun x r hx => ⟨(h.mem hx).2, fun y hy => h.injective hy hx⟩,
    fun x => get?_take _ _, full_takeAll_iff xs, ?_, ?_⟩
  · intro x ys hcr
    have hmem : ∀ y ∈ xs ++ x :: ys, y ∈ (xs ++ x :: ys).toFinset := fun _ => List.mem_toFinset.2
    obtain ⟨hxs, hx, hys⟩ := by simpa only [List.forall_mem_append, List.forall_mem_cons] using hmem
    have hw := (within_empty (xs ++ x :: ys).toFinset).takeAll hxs
    obtain ⟨hw', -, hget⟩ := hw.take hcr hx
    have hend : ((empty.takeAll xs).takeAll (x :: ys)).take (some x) = _ :=
      take_of_get? (hw'.extends_takeAll hcr hys x _ hget)
    rw [takeAll_append, hend]
  · intro hfull
    refine ⟨fun ys => ?_, fun x hx => ?_⟩
    · have h' := hin (xs ++ ys)
      rw [takeAll_append] at h' ⊢
      obtain ⟨hfull', hkeeps⟩ := hfull.takeAll ys
      exact ⟨hfull', fun y r hr hy => h'.holds.1 ((hkeeps r hr).trans (h.holds.2 hy))⟩
    · obtain ⟨old, hold⟩ := Option.ne_none_iff_exists'.1 (hfull victim (by decide))
      rw [take_of_new hx, hfull.next_eq]
      refine ⟨rfl, old, hold, fun y => ?_⟩
      rw [get?_give, hold]
      simp only [Option.some.injEq, eq_comm]

/-- Sixteen names, one of them asked for twice. -/
def letters : List String :=
  ["a", "b", "c", "d", "e", "f", "g", "h", "a", "i", "j", "k", "l", "m", "n", "o", "p"]

/-- They hold all registers. The next name gets the first one, and the second name keeps its own
    when more is asked for. -/
theorem requests_share_registers_letters : (empty.takeAll letters).Full ∧
    ((empty.takeAll letters).take (some "q")).1 = victim ∧
    (empty.takeAll (letters ++ ["q", "r", "a"])).ofVariable.get? (some "b") = some (.temp 1) := by
  obtain ⟨-, -, -, hiff, -, hrs⟩ := requests_share_registers letters
  have hfull := hiff.2 (by decide)
  obtain ⟨hkeeps, hnew⟩ := hrs hfull
  exact ⟨hfull, (hnew "q" (by decide)).1, (hkeeps ["q", "r", "a"]).2 "b" _ (by decide) (by decide)⟩

end Registers

end Mips

end Compiscript
