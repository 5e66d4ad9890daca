import Compiscript.Codegen.Basic
import Compiscript.Proofs.Tac.Names

/-!
# The Pool of Temporaries

Which numbers a pool can hand out, and what becomes of them.

A pool that is used well never holds a number twice: what is given back was
taken before. `Temps.Kept` says so of the pool alone, without looking at who
holds the other numbers.

A name is safe from a pool if no number that can be handed out has that name.
-/

namespace Compiscript.Temps

open List hiding get

/-- A number can be handed out. -/
def Avail (p : Temps) (j : Int) : Prop := j ∈ p.free ∨ p.next ≤ j

/-- A pool holds no number twice, and none that it will still make up. -/
structure Kept (p : Temps) : Prop where
  nodup : p.free.Nodup
  lt : ∀ j ∈ p.free, j < p.next
  nonneg : ∀ j ∈ p.free, 0 ≤ j
  next_nonneg : 0 ≤ p.next

lemma kept_empty : Kept .empty :=
  ⟨nodup_nil, by simp [empty], by simp [empty], by simp [empty]⟩

variable {p q : Temps} {i j : Int}

lemma Kept.avail_nonneg (h : p.Kept) (hj : p.Avail j) : 0 ≤ j := by
  rcases hj with hj | hj
  · exact h.nonneg j hj
  · exact Int.le_trans h.next_nonneg hj

lemma avail_get_self (p : Temps) : p.Avail p.get.1 := by
  unfold get
  split
  · rename_i n rest heq
    exact Or.inl (by simp [heq])
  · exact Or.inr (Int.le_refl _)

lemma history_get (p : Temps) : p.get.2.history = p.history ++ [.take p.get.1] := by
  unfold get
  split <;> rfl

/-- Taking a number makes just that one unavailable. -/
lemma Kept.avail_get (h : p.Kept) : p.get.2.Avail j ↔ p.Avail j ∧ j ≠ p.get.1 := by
  unfold get
  split
  · rename_i n rest heq
    have hnd := h.nodup
    have hlt : n < p.next := h.lt n (by simp [heq])
    rw [heq, nodup_cons] at hnd
    simp only [Avail, heq, mem_cons]
    constructor
    · rintro (hj | hj)
      · exact ⟨Or.inl (Or.inr hj), fun heq => hnd.1 (heq ▸ hj)⟩
      · exact ⟨Or.inr hj, by omega⟩
    · rintro ⟨(hj | hj) | hj, hne⟩
      · exact absurd hj hne
      · exact Or.inl hj
      · exact Or.inr hj
  · rename_i heq
    simp only [Avail, heq, not_mem_nil, false_or]
    omega

lemma Kept.get (h : p.Kept) : p.get.2.Kept := by
  unfold Temps.get
  split
  · rename_i n rest heq
    rcases h with ⟨hnd, hlt, hnon, hnx⟩
    rw [heq] at hnd hlt hnon
    exact ⟨(nodup_cons.1 hnd).2, fun j hj => hlt j (.tail _ hj),
      fun j hj => hnon j (.tail _ hj), hnx⟩
  · rename_i heq
    refine ⟨?_, ?_, ?_, ?_⟩
    · rw [heq]
      exact nodup_nil
    · simp [heq]
    · simp [heq]
    · have := h.next_nonneg
      change 0 ≤ p.next + 1
      omega

/-- A pool after a value was given back. -/
def giveBack (p : Temps) : Value → Temps
  | .temp n => p.release n
  | _ => p

variable {v : Value} {x : String}

lemma history_giveBack (p : Temps) (v : Value) : p.history <+: (p.giveBack v).history := by
  cases v with
  | temp n => exact prefix_append _ _
  | none | text => exact prefix_rfl

lemma avail_giveBack : (p.giveBack v).Avail j ↔ p.Avail j ∨ v = .temp j := by
  cases v with
  | temp n =>
    change (j ∈ n :: p.free ∨ p.next ≤ j) ↔ _
    simp only [mem_cons, Avail, Value.temp.injEq]
    grind
  | none => simp [giveBack]
  | text s => simp [giveBack]

/-- A value that the pool cannot hand out: a temporary that was taken, or a name
    that could not be one. -/
def Held (p : Temps) : Value → Prop
  | .temp j => 0 ≤ j ∧ ¬p.Avail j
  | .text x => Tac.isTempName x = false
  | .none => False

lemma Held.mono (h : p.Held v) (hq : ∀ j, q.Avail j → p.Avail j) : q.Held v := by
  cases v with
  | temp j => exact ⟨h.1, fun hj => h.2 (hq j hj)⟩
  | text x => exact h
  | none => exact h

lemma Held.not_avail (h : p.Held v) (hj : p.Avail j) : v ≠ .temp j := by
  rintro rfl
  exact h.2 hj

lemma Kept.held_get (h : p.Kept) : p.get.2.Held (.temp p.get.1) :=
  ⟨h.avail_nonneg p.avail_get_self, fun hav => (h.avail_get.1 hav).2 rfl⟩

/-- Two values that are not the same temporary. -/
def Apart (v v' : Value) : Prop := ∀ j, v = .temp j → v' ≠ .temp j

/-- A value is still held after another one was given back. -/
lemma Held.giveBack (h : p.Held v') (hapart : Apart v v') : (p.giveBack v).Held v' := by
  cases v' with
  | temp j =>
    refine ⟨h.1, fun hav => ?_⟩
    rcases avail_giveBack.1 hav with hj | hv
    · exact h.2 hj
    · exact hapart j hv rfl
  | text x => exact h
  | none => exact h

/-- What is given back must have been taken. -/
lemma Kept.giveBack (h : p.Kept) (hv : p.Held v) : (p.giveBack v).Kept := by
  cases v with
  | temp n =>
    rcases hv with ⟨hnon, hn⟩
    rw [Avail, not_or] at hn
    refine ⟨nodup_cons.2 ⟨hn.1, h.nodup⟩, ?_, ?_, h.next_nonneg⟩
    · intro j hj
      change j ∈ n :: p.free at hj
      change j < p.next
      rcases mem_cons.1 hj with rfl | hj
      · omega
      · exact h.lt j hj
    · intro j hj
      change j ∈ n :: p.free at hj
      rcases mem_cons.1 hj with rfl | hj
      · exact hnon
      · exact h.nonneg j hj
  | none => exact h
  | text s => exact h

/-- A name that the pool does not stand for. -/
def Safe (p : Temps) (x : String) : Prop := ∀ j, p.Avail j → x ≠ Tac.tempName (.int j)

lemma Safe.mono (h : p.Safe x) (hq : ∀ j, q.Avail j → p.Avail j) : q.Safe x :=
  fun j hj => h j (hq j hj)

lemma Kept.safe (h : p.Kept) (hx : Tac.isTempName x = false) : p.Safe x := by
  rintro j hj rfl
  obtain ⟨n, rfl⟩ := Int.eq_ofNat_of_zero_le (h.avail_nonneg hj)
  rw [Tac.isTempName_tempName] at hx
  cases hx

lemma Kept.safe_value (h : p.Kept) (hv : p.Held v) : p.Safe v.display := by
  cases v with
  | temp i =>
    rcases hv with ⟨hi, hnot⟩
    intro j hj heq
    obtain ⟨m, rfl⟩ := Int.eq_ofNat_of_zero_le hi
    obtain ⟨n, rfl⟩ := Int.eq_ofNat_of_zero_le (h.avail_nonneg hj)
    have hmn : m = n := Tac.tempName_injective heq
    exact hnot (hmn ▸ hj)
  | text x => exact h.safe hv
  | none => exact hv.elim

/-- Two stores that differ in names of the pool only. -/
def Frame {V : Type} (p : Temps) (store store' : String → V) : Prop :=
  ∀ x, p.Safe x → store' x = store x

namespace Frame

variable {V : Type} {store store' store'' : String → V}

lemma refl (p : Temps) (store : String → V) : p.Frame store store := fun _ _ => rfl

lemma trans (h : p.Frame store store') (h' : p.Frame store' store'') : p.Frame store store'' :=
  fun x hx => (h' x hx).trans (h x hx)

lemma mono (h : q.Frame store store') (hq : ∀ j, q.Avail j → p.Avail j) : p.Frame store store' :=
  fun x hx => h x (hx.mono hq)

/-- A temporary of the pool may be written. -/
lemma update (hj : p.Avail j) (v : V) :
    p.Frame store (Function.update store (Tac.tempName (.int j)) v) :=
  fun _ hx => Function.update_of_ne (hx j hj) _ _

end Frame

end Compiscript.Temps
