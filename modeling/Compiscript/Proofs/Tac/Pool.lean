import Compiscript.Tac.Temps
import Mathlib.Data.List.Nodup

/-!
# Temporaries in Use

A pool on its own does not know which of its numbers are in use. It is followed through requests
that give back only what is in use.

## Theorems

* `Temps.Usage.hands_out_unused`: All numbers are in use or free, and there have never been more of
  them than were in use at one time.
-/

namespace Compiscript.Temps

open List hiding get

/-- What can be asked of a pool. -/
inductive Request where
  | take
  | giveBack (n : Int)
  | reset
deriving DecidableEq, Repr

/-- A pool, the numbers in use, and how many of them were in use at most since the pool was new. -/
structure Usage where
  pool : Temps
  held : List Int
  peak : Nat
deriving DecidableEq, Repr

namespace Usage

def start : Usage := ⟨.empty, [], 0⟩

/-- Answer a request, unless it gives back a number that is not in use. -/
def answer (u : Usage) : Request → Option Usage
  | .take => some ⟨u.pool.get.2, u.pool.get.1 :: u.held, max u.peak (u.held.length + 1)⟩
  | .giveBack n =>
    if n ∈ u.held then some ⟨u.pool.release n, u.held.erase n, u.peak⟩ else none
  | .reset => some start

/-- Answer requests one after the other, from a new pool on. -/
def after (requests : List Request) : Option Usage := requests.foldlM answer start

/-- The numbers in use and the free ones are just those made so far, as many as the peak. -/
structure Sound (u : Usage) : Prop where
  perm : u.held ++ u.pool.free ~ (range u.peak).map Int.ofNat
  next : u.pool.next = u.peak

lemma sound_start : Sound start := ⟨.nil, rfl⟩

variable {u v : Usage} {r : Request}

lemma Sound.length (h : u.Sound) : u.held.length + u.pool.free.length = u.peak := by
  simpa using h.perm.length_eq

lemma Sound.nodup (h : u.Sound) : (u.held ++ u.pool.free).Nodup :=
  h.perm.nodup_iff.2 (nodup_range.map fun _ _ => Int.ofNat.inj)

lemma Sound.mem (h : u.Sound) (n : Int) :
    n ∈ u.held ∨ n ∈ u.pool.free ↔ 0 ≤ n ∧ n < u.pool.next := by
  rw [← mem_append, h.perm.mem_iff, h.next, mem_map]
  constructor
  · rintro ⟨m, hm, rfl⟩
    simpa using hm
  · intro hn
    exact ⟨n.toNat, mem_range.2 (by omega), Int.toNat_of_nonneg hn.1⟩

lemma Sound.get_not_mem (h : u.Sound) : u.pool.get.1 ∉ u.held := by
  intro hmem
  unfold get at hmem
  split at hmem
  · rename_i n rest heq
    exact (nodup_append.1 h.nodup).2.2 n hmem n (heq ▸ .head _) rfl
  · exact absurd ((h.mem _).1 (.inl hmem)).2 (Int.lt_irrefl _)

lemma Sound.take (h : u.Sound) (hv : u.answer .take = some v) : v.Sound := by
  have hlen := h.length
  have hperm := h.perm
  cases hv
  cases hfree : u.pool.free with
  | nil =>
    -- All numbers are in use, so the one that is made is one more than ever before.
    simp only [hfree, length_nil, Nat.add_zero, append_nil] at hlen hperm
    constructor
    · simpa [get, hfree, hlen, h.next, range_succ] using
        (hperm.cons _).trans (perm_append_singleton _ _).symm
    · simp [get, hfree, hlen, h.next]
  | cons n rest =>
    rw [hfree, length_cons] at hlen
    have hpeak : max u.peak (u.held.length + 1) = u.peak := by omega
    rw [hfree] at hperm
    constructor
    · simpa [get, hfree, hpeak] using perm_middle.symm.trans hperm
    · simp [get, hfree, hpeak, h.next]

lemma Sound.answer (h : u.Sound) (hv : u.answer r = some v) : v.Sound := by
  cases r with
  | take => exact h.take hv
  | giveBack n =>
    obtain ⟨hn, ⟨⟩⟩ := Option.ite_none_right_eq_some.1 hv
    exact ⟨perm_middle.trans (((perm_cons_erase hn).symm.append_right _).trans h.perm), h.next⟩
  | reset =>
    cases hv
    exact sound_start

lemma Sound.answers {requests : List Request} (h : u.Sound)
    (hv : requests.foldlM Usage.answer u = some v) : v.Sound := by
  induction requests generalizing u with
  | nil =>
    cases hv
    exact h
  | cons r requests ih =>
    obtain ⟨w, hw, hv⟩ := Option.bind_eq_some_iff.1 hv
    exact ih (h.answer hw) hv

/-- After any requests that give back only what is in use, the pool hands out a number that is
    not in use. The numbers in use and the free ones have no duplicates and are together those
    from zero up to the next one, which is the largest number of them that were in use at one
    time since the last reset. -/
theorem hands_out_unused (requests : List Request) (u : Usage) (h : after requests = some u) :
    u.pool.get.1 ∉ u.held ∧ u.held.Nodup ∧ u.pool.free.Nodup ∧ (∀ n ∈ u.held, n ∉ u.pool.free) ∧
      (∀ n, n ∈ u.held ∨ n ∈ u.pool.free ↔ 0 ≤ n ∧ n < u.pool.next) ∧ u.pool.next = u.peak := by
  have hsound : u.Sound := sound_start.answers h
  obtain ⟨hheld, hfree, hapart⟩ := List.nodup_append.1 hsound.nodup
  exact ⟨hsound.get_not_mem, hheld, hfree, fun n hn hn' => hapart n hn n hn' rfl, hsound.mem,
    hsound.next⟩

/-- A number that is given back while a later one stays in use. -/
theorem hands_out_unused_again :
    after [.take, .reset, .take, .take, .giveBack 0] =
        some ⟨⟨[0], 2, [.take 0, .take 1, .give 0]⟩, [1], 2⟩ ∧
      (Temps.get ⟨[0], 2, [.take 0, .take 1, .give 0]⟩).1 ∉ [(1 : Int)] :=
  ⟨by decide, (hands_out_unused [.take, .reset, .take, .take, .giveBack 0]
    ⟨⟨[0], 2, [.take 0, .take 1, .give 0]⟩, [1], 2⟩ (by decide)).1⟩

end Usage

end Compiscript.Temps
