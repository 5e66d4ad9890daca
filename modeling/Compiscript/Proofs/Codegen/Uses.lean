import Compiscript.Proofs.Codegen.Forms
import Mathlib.Algebra.BigOperators.Group.Multiset.Basic
import Mathlib.Tactic.Abel

/-!
# Who Holds a Temporary

Taking temporaries and giving them back, seen as a sequence of events. They are those
that a step of the generator adds to the history of the pool.

What is held is followed through the code as a multiset, so that it can be
reordered at will.

## Main definitions

* `Temps.Owns`: Events of someone who gives back only what they have taken.
* `Temps.Keeps`: A pool that has no number twice and none that is held.
* `Gen.Handles`: A step that owns what it gives back, by the history of the pool.

## Theorems

* `Temps.Keeps.get`, `Temps.Keeps.release`: What a request does to such a pool.
* `Gen.Handles.bind`: Steps one behind the other.
-/

namespace Compiscript

namespace Temps

/-- Events of someone who holds the temporaries `A` at first and `B` in the end:
    what is taken was not held, and what is given back was. -/
inductive Owns : Set Int → List Use → Set Int → Prop where
  | nil (A : Set Int) : Owns A [] A
  | take {n : Int} {A B : Set Int} {us : List Use} (hn : n ∉ A) (h : Owns (A ∪ {n}) us B) :
      Owns A (.take n :: us) B
  | give {n : Int} {A B : Set Int} {us : List Use} (hn : n ∈ A) (h : Owns (A \ {n}) us B) :
      Owns A (.give n :: us) B

lemma Owns.append {A B C : Set Int} {us vs : List Use} (h : Owns A us B) (h' : Owns B vs C) :
    Owns A (us ++ vs) C := by
  induction h with
  | nil => exact h'
  | take hn _ ih => exact .take hn (ih h')
  | give hn _ ih => exact .give hn (ih h')

/-- A pool that has no number twice, and none that is held or still to be made up. -/
structure Keeps (p : Temps) (H : Set Int) : Prop where
  nodup : p.free.Nodup
  free_lt : ∀ n ∈ p.free, n < p.next
  held_lt : ∀ n ∈ H, n < p.next
  apart : ∀ n ∈ p.free, n ∉ H

namespace Keeps

variable {p : Temps} {H : Set Int}

lemma get_not_mem (h : p.Keeps H) : p.get.1 ∉ H := by
  unfold Temps.get
  split
  · rename_i n rest heq
    exact h.apart n (by simp [heq])
  · exact fun hmem => absurd (h.held_lt _ hmem) (Int.lt_irrefl _)

lemma get (h : p.Keeps H) : p.get.2.Keeps (H ∪ {p.get.1}) := by
  unfold Temps.get
  split
  · rename_i n rest heq
    rcases h with ⟨hnd, hfree, hheld, hapart⟩
    rw [heq] at hnd hfree hapart
    obtain ⟨hn, hr⟩ := List.nodup_cons.1 hnd
    refine ⟨hr, fun j hj => hfree j (List.mem_cons_of_mem n hj), ?_, ?_⟩
    · rintro j (hj | rfl)
      · exact hheld j hj
      · exact hfree j (.head _)
    · rintro j hj (hmem | rfl)
      · exact hapart j (List.mem_cons_of_mem n hj) hmem
      · exact hn hj
  · rename_i heq
    have hlt : p.next < p.next + 1 := by omega
    refine ⟨by simp [heq], by simp [heq], ?_, by simp [heq]⟩
    rintro j (hj | rfl)
    · exact Int.lt_trans (h.held_lt j hj) hlt
    · exact hlt

/-- Who gives a number back does not hold it any more. -/
lemma release {n : Int} (h : p.Keeps H) (hn : n ∈ H) : (p.release n).Keeps (H \ {n}) where
  nodup := List.nodup_cons.2 ⟨fun hmem => h.apart n hmem hn, h.nodup⟩
  free_lt := List.forall_mem_cons.2 ⟨h.held_lt n hn, h.free_lt⟩
  held_lt j hj := h.held_lt j hj.1
  apart := List.forall_mem_cons.2 ⟨fun hmem => hmem.2 rfl, fun j hj hmem => h.apart j hj hmem.1⟩

end Keeps

/-- The numbers of a multiset. -/
def held (M : Multiset Int) : Set Int := {n | n ∈ M}

@[simp] lemma mem_held {n : Int} {M : Multiset Int} : n ∈ held M ↔ n ∈ M := Iff.rfl

lemma held_singleton_add (n : Int) (M : Multiset Int) : held ({n} + M) = held M ∪ {n} := by
  ext j
  simp

/-- A pool while others hold the temporaries `H`, and `M` are held besides. -/
structure Holds (p : Temps) (H : Set Int) (M : Multiset Int) : Prop where
  keeps : p.Keeps (H ∪ held M)
  nodup : M.Nodup
  apart : ∀ n ∈ M, n ∉ H

namespace Holds

variable {p : Temps} {H : Set Int} {M : Multiset Int}

lemma get (h : p.Holds H M) : p.get.2.Holds H ({p.get.1} + M) ∧ p.get.1 ∉ M := by
  have hnot : ¬(p.get.1 ∈ H ∨ p.get.1 ∈ M) := h.keeps.get_not_mem
  rw [not_or] at hnot
  refine ⟨⟨?_, ?_, ?_⟩, hnot.2⟩
  · rw [held_singleton_add, ← Set.union_assoc]
    exact h.keeps.get
  · exact Multiset.nodup_cons.2 ⟨hnot.2, h.nodup⟩
  · intro n hn
    rcases Multiset.mem_add.1 hn with hn | hn
    · rw [Multiset.mem_singleton.1 hn]
      exact hnot.1
    · exact h.apart n hn

lemma release {n : Int} (h : p.Holds H ({n} + M)) : (p.release n).Holds H M := by
  obtain ⟨hn, hM⟩ := Multiset.nodup_cons.1 h.nodup
  have hH : n ∉ H := h.apart n (by simp)
  refine ⟨?_, hM, fun j hj => h.apart j (Multiset.mem_add.2 (.inr hj))⟩
  have hset : (H ∪ held ({n} + M)) \ {n} = H ∪ held M := by
    ext j
    simp only [held_singleton_add, Set.mem_union, Set.mem_sdiff, Set.mem_singleton_iff, mem_held]
    grind
  rw [← hset]
  exact h.keeps.release (.inr (by simp))

end Holds

end Temps

namespace Gen

open Temps

/-- A step that is begun while others hold `H` and it holds `M` itself comes to
    its end, owns what it gives back, and holds in the end what `P` says. -/
def Handles {α : Type} (H : Set Int) (M : Multiset Int) (x : Gen α)
    (P : α → Multiset Int → Prop) : Prop :=
  ∀ g, g.temps.Holds H M → ∃ us a g' M', Gives x g a g' ∧
    g'.temps.history = g.temps.history ++ us ∧ Owns (held M) us (held M') ∧
    g'.temps.Holds H M' ∧ P a M'

namespace Handles

variable {α β : Type} {H : Set Int} {M N : Multiset Int} {x : Gen α} {f : α → Gen β}
  {P P' : α → Multiset Int → Prop} {R : β → Multiset Int → Prop}

lemma imp (h : Handles H M x P) (hP : ∀ a N, P a N → P' a N) : Handles H M x P' := by
  intro g hg
  obtain ⟨us, a, g', N, hgv, hus, howns, hho, hN⟩ := h g hg
  exact ⟨us, a, g', N, hgv, hus, howns, hho, hP a N hN⟩

lemma bind (hx : Handles H M x P) (hf : ∀ a N, P a N → Handles H N (f a) R) :
    Handles H M (x >>= f) R := by
  intro g hg
  obtain ⟨us, a, g', N, hgv, hus, howns, hho, hN⟩ := hx g hg
  obtain ⟨vs, b, g'', N', hgv', hvs, howns', hholds', hN'⟩ := hf a N hN g' hho
  refine ⟨us ++ vs, b, g'', N', hgv.bind hgv', ?_, howns.append howns', hholds', hN'⟩
  rw [hvs, hus, List.append_assoc]

/-- A step that leaves the pool alone has no events. -/
lemma of_temps {a : Generator → α} {s : Generator → Generator}
    (hgv : ∀ g, Gives x g (a g) (s g)) (hs : ∀ g, (s g).temps = g.temps) (h : ∀ g, P (a g) M) :
    Handles H M x P := by
  intro g hg
  refine ⟨[], a g, s g, M, hgv g, ?_, .nil _, ?_, h g⟩
  · rw [hs, List.append_nil]
  · rwa [hs]

lemma pure {a : α} (h : P a M) : Handles H M (Pure.pure a) P :=
  of_temps (fun g => .pure a g) (fun _ => rfl) fun _ => h

lemma get {k : Generator → Gen β} (h : ∀ g, Handles H M (k g) R) :
    Handles H M (MonadState.get >>= k) R :=
  bind (P := fun _ N => N = M) (of_temps (fun _ => rfl) (fun _ => rfl) fun _ => rfl)
    fun g _ hN => hN ▸ h g

lemma modify {f : Generator → Generator} (hf : ∀ g, (f g).temps = g.temps) {k : Unit → Gen β}
    (h : Handles H M (k ()) R) : Handles H M (modify f >>= k) R :=
  bind (P := fun _ N => N = M) (of_temps (fun _ => rfl) hf fun _ => rfl) fun _ _ hN => hN ▸ h

lemma emit {op : Op} {a1 a2 res : Operand} {k : Unit → Gen β} (h : Handles H M (k ()) R) :
    Handles H M (Gen.emit op a1 a2 res >>= k) R :=
  modify (f := fun s => { s with code := s.code ++ [.of op a1 a2 res] }) (fun _ => rfl) h

lemma freshLabel {k : String → Gen β} (h : ∀ l, Handles H M (k l) R) :
    Handles H M (Gen.freshLabel >>= k) R := by
  rw [Gen.freshLabel, bind_assoc]
  refine get fun g => ?_
  rw [bind_assoc]
  refine modify (f := fun s => { s with labels := g.labels + 1 }) (fun _ => rfl) ?_
  rw [pure_bind]
  exact h _

lemma freshTemp {k : Int → Gen β} (h : ∀ n, Handles H ({n} + M) (k n) R) :
    Handles H M (Gen.freshTemp >>= k) R := by
  refine bind (P := fun n N => N = {n} + M) (fun g hg => ?_) fun n _ hN => hN ▸ h n
  obtain ⟨hho, hnot⟩ := hg.get
  refine ⟨[.take g.temps.get.1], _, _, _, rfl, g.temps.history_get, .take hnot ?_, hho, rfl⟩
  rw [held_singleton_add]
  exact .nil _

end Handles

end Gen

/-- The temporary of a value, if it is one. -/
def Value.temps : Value → Multiset Int
  | .temp n => {n}
  | _ => 0

namespace Gen

open Temps

namespace Handles

variable {β : Type} {H : Set Int} {M N : Multiset Int} {v : Value} {k : Unit → Gen β}
  {R : β → Multiset Int → Prop}

lemma release (hM : M = v.temps + N) (h : Handles H N (k ()) R) :
    Handles H M (Gen.release v >>= k) R := by
  subst hM
  cases v with
  | none =>
    rw [show Value.none.temps + N = N from zero_add N]
    exact bind (P := fun _ N' => N' = N) (pure rfl) fun _ _ hN => hN ▸ h
  | text s =>
    rw [show (Value.text s).temps + N = N from zero_add N]
    exact bind (P := fun _ N' => N' = N) (pure rfl) fun _ _ hN => hN ▸ h
  | temp n =>
    refine bind (P := fun _ N' => N' = N) (fun g hg => ?_) fun _ _ hN => hN ▸ h
    change g.temps.Holds H ({n} + N) at hg
    have hn : n ∉ N := (Multiset.nodup_cons.1 hg.nodup).1
    refine ⟨[.give n], (), _, N, rfl, rfl, .give ?_ ?_, hg.release, rfl⟩
    · exact Multiset.mem_add.2 (.inl (Multiset.mem_singleton_self n))
    · have hset : held ((Value.temp n).temps + N) \ {n} = held N := by
        ext j
        simp only [Value.temps, held_singleton_add, Set.mem_union, Set.mem_sdiff,
          Set.mem_singleton_iff, mem_held]
        grind
      rw [hset]
      exact .nil _

end Handles

end Gen

end Compiscript
