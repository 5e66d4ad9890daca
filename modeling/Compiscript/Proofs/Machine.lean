import Mathlib.Data.List.Infix

/-!
# Machines

Machines that go on from state to state until they halt, and what two of them
have in common.

A machine is given by its step alone: from a state it either goes on to another
one or halts, and says why.

`Simulates` relates two machines by what one step of the first means for the
second. The second has to move whenever the first does.
-/

namespace Compiscript.Machine

section Code

variable {α : Type}

/-- A piece of code stands in longer code, with its first instruction at
    `start`. -/
def Placed (code piece : List α) (start : Nat) : Prop :=
  ∃ before after, code = before ++ (piece ++ after) ∧ before.length = start

namespace Placed

variable {code a b : List α} {x : α} {start : Nat}

lemma whole (code : List α) : Placed code code 0 := ⟨[], [], by simp, rfl⟩

lemma left (h : Placed code (a ++ b) start) : Placed code a start := by
  rcases h with ⟨before, after, rfl, hlen⟩
  exact ⟨before, b ++ after, by simp, hlen⟩

lemma right (h : Placed code (a ++ b) start) : Placed code b (start + a.length) := by
  rcases h with ⟨before, after, rfl, rfl⟩
  exact ⟨before ++ a, after, by simp, by simp⟩

lemma get (h : Placed code (x :: b) start) : code[start]? = some x := by
  rcases h with ⟨before, after, rfl, rfl⟩
  simp

lemma tail (h : Placed code (x :: b) start) : Placed code b (start + 1) :=
  (show Placed code ([x] ++ b) start from h).right

end Placed

end Code

section Run

variable {S H : Type} (step : S → Except H S)

/-- Going on for exactly `n` steps. -/
inductive Steps : Nat → S → S → Prop where
  | refl (s : S) : Steps 0 s s
  | step {n : Nat} {s s' t : S} (h : step s = .ok s') (rest : Steps n s' t) : Steps (n + 1) s t

/-- Going on for any number of steps. -/
def Reaches (s t : S) : Prop := ∃ n, Steps step n s t

/-- Halting in state `t`, for a reason. -/
def Halts (s : S) (why : H) (t : S) : Prop := Reaches step s t ∧ step t = .error why

variable {step}

variable {s : S} {m n : Nat} {t u : S} {why : H}

lemma Steps.one {s' : S} (h : step s = .ok s') : Steps step 1 s s' :=
  .step h (.refl s')

lemma Steps.trans (h1 : Steps step m s t) (h2 : Steps step n t u) : Steps step (m + n) s u := by
  induction h1 with
  | refl s => rwa [Nat.zero_add]
  | @step m s s' t h _ ih =>
    rw [show m + 1 + n = m + n + 1 by omega]
    exact .step h (ih h2)

/-- Of two paths out of a state, the longer one passes through the end of the shorter one. -/
lemma Steps.suffix (h1 : Steps step m s t) (h2 : Steps step (m + n) s u) : Steps step n t u := by
  induction h1 with
  | refl s => rwa [Nat.zero_add] at h2
  | @step m s s' t h _ ih =>
    rw [show m + 1 + n = m + n + 1 by omega] at h2
    cases h2 with
    | step h' rest =>
      rw [h] at h'
      injection h' with h'
      subst h'
      exact ih rest

lemma Steps.eq_of_halted (h : Steps step n s t) (hs : step s = .error why) : n = 0 ∧ t = s := by
  cases h with
  | refl => exact ⟨rfl, rfl⟩
  | step h' _ => rw [hs] at h'; cases h'

/-- A path is no longer than one that ends in a halt. -/
lemma Steps.le_of_halted (h : Steps step m s t)
    (h' : Steps step n s u) (hu : step u = .error why) : m ≤ n := by
  by_contra hlt
  have hm : m = n + (m - n) := by omega
  rw [hm] at h
  have := (h'.suffix h).eq_of_halted hu
  omega

lemma steps_or_halts (n : Nat) (s : S) : (∃ t, Steps step n s t) ∨ ∃ why t, Halts step s why t := by
  induction n with
  | zero => exact Or.inl ⟨s, .refl s⟩
  | succ n ih =>
    rcases ih with ⟨t, ht⟩ | hhalt
    · cases hsp : step t with
      | ok t' => exact Or.inl ⟨t', ht.trans (.one hsp)⟩
      | error why => exact Or.inr ⟨why, t, ⟨n, ht⟩, hsp⟩
    · exact Or.inr hhalt

lemma Reaches.refl (s : S) : Reaches step s s := ⟨0, .refl s⟩

lemma Reaches.trans (h1 : Reaches step s t) (h2 : Reaches step t u) : Reaches step s u := by
  rcases h1 with ⟨m, h1⟩
  rcases h2 with ⟨n, h2⟩
  exact ⟨m + n, h1.trans h2⟩

lemma Reaches.one (h : step s = .ok s') : Reaches step s s' := ⟨1, .one h⟩

lemma Halts.of_reaches (h : Reaches step s t) (ht : Halts step t why u) : Halts step s why u :=
  ⟨h.trans ht.1, ht.2⟩

/-- A machine halts in one state only, and for one reason. -/
lemma Halts.unique {why' : H} (h : Halts step s why t)
    (h' : Halts step s why' u) : why = why' ∧ t = u := by
  rcases h with ⟨⟨m, hm⟩, ht⟩
  rcases h' with ⟨⟨n, hn⟩, hu⟩
  have hmn : m = n := Nat.le_antisymm (hm.le_of_halted hn hu) (hn.le_of_halted hm ht)
  subst hmn
  have htu : Steps step 0 t u := hm.suffix hn
  cases htu
  rw [ht] at hu
  injection hu with hu
  exact ⟨hu, rfl⟩

end Run

section Print

variable {S H V : Type} (step : S → Except H S) (out : S → List V)

/-- Printing a text at some time, perhaps with more behind it. -/
def Prints (s : S) (w : List V) : Prop := ∃ t, Reaches step s t ∧ w <+: out t

/-- What was printed is never taken back. -/
def KeepsOutput : Prop := ∀ s s', step s = .ok s' → out s <+: out s'

variable {step out}

variable {s t : S}

lemma KeepsOutput.steps (h : KeepsOutput step out) {n : Nat} (hs : Steps step n s t) :
    out s <+: out t := by
  induction hs with
  | refl => exact List.prefix_rfl
  | step h1 _ ih => exact (h _ _ h1).trans ih

/-- All that is ever printed is printed by the time of a halt. -/
lemma Prints.prefix_of_halts (hout : KeepsOutput step out) {why : H} {w : List V}
    (h : Prints step out s w) (ht : Halts step s why t) : w <+: out t := by
  rcases h with ⟨u, ⟨m, hu⟩, hw⟩
  rcases ht with ⟨⟨n, hn⟩, hend⟩
  have hle : m ≤ n := hu.le_of_halted hn hend
  rw [show n = m + (n - m) by omega] at hn
  exact hw.trans (hout.steps (hu.suffix hn))

end Print

section Simulation

variable {S T H K V : Type}

/-- The second machine goes along with the first: related states have printed the same, each step of
    the first is some steps of the second, at least one, and where the first halts the second does
    so before long, having printed nothing else. -/
structure Simulates (stepS : S → Except H S) (stepT : T → Except K T) (outS : S → List V)
    (outT : T → List V) (reason : H → K) (R : S → T → Prop) : Prop where
  out {s : S} {t : T} (h : R s t) : outS s = outT t
  step {s s' : S} {t : T} (h : R s t) (hs : stepS s = .ok s') :
    ∃ n t', Steps stepT (n + 1) t t' ∧ R s' t'
  halt {s : S} {t : T} {why : H} (h : R s t) (hs : stepS s = .error why) :
    ∃ t', Halts stepT t (reason why) t' ∧ outT t' = outT t

variable {stepS : S → Except H S} {stepT : T → Except K T} {outS : S → List V}
  {outT : T → List V} {reason : H → K} {R : S → T → Prop}

namespace Simulates

variable (sim : Simulates stepS stepT outS outT reason R)

include sim

variable {s s' : S} {t : T}

/-- A number of steps of the first machine is at least that number of steps of the second. -/
lemma steps {n : Nat} (h : R s t) (hs : Steps stepS n s s') :
    ∃ m t', n ≤ m ∧ Steps stepT m t t' ∧ R s' t' := by
  induction hs generalizing t with
  | refl s => exact ⟨0, t, Nat.le_refl 0, .refl t, h⟩
  | step h1 _ ih =>
    rcases sim.step h h1 with ⟨k, t1, ht1, hr1⟩
    rcases ih hr1 with ⟨m, t', hm, ht', hr'⟩
    exact ⟨k + 1 + m, t', by omega, ht1.trans ht', hr'⟩

lemma halts {why : H} (h : R s t) (hs : Halts stepS s why s') :
    ∃ t', Halts stepT t (reason why) t' ∧ outT t' = outS s' := by
  rcases hs with ⟨⟨n, hn⟩, hend⟩
  rcases sim.steps h hn with ⟨m, u, _, hu, hr⟩
  rcases sim.halt hr hend with ⟨t', ht', hout⟩
  exact ⟨t', .of_reaches ⟨m, hu⟩ ht', by rw [hout, sim.out hr]⟩

/-- If the second machine halts, the first one does, within as many steps. -/
lemma halts_of_halts {t' : T} {why : K} (h : R s t) (ht : Halts stepT t why t') :
    ∃ why' s', Halts stepS s why' s' := by
  rcases ht with ⟨⟨n, hn⟩, hend⟩
  -- A path of the first machine that is longer than `n` would be one of the
  -- second that goes on behind its halt.
  have hbd : ∀ k s', Steps stepS k s s' → k ≤ n := by
    intro k s' hs
    rcases sim.steps h hs with ⟨m, u, hkm, hu, _⟩
    exact hkm.trans (hu.le_of_halted hn hend)
  rcases @steps_or_halts S H stepS (n + 1) s with ⟨s', hs'⟩ | hhalt
  · have := hbd (n + 1) s' hs'
    omega
  · exact hhalt

/-- The machines halt for the same reason and with the same output, or not at all. -/
lemma halts_iff (hinj : Function.Injective reason) (h : R s t) (why : H)
    (w : List V) : (∃ s', Halts stepS s why s' ∧ outS s' = w) ↔
      ∃ t', Halts stepT t (reason why) t' ∧ outT t' = w := by
  constructor
  · rintro ⟨s', hs, hw⟩
    rcases sim.halts h hs with ⟨t', ht, hout⟩
    exact ⟨t', ht, by rw [hout, hw]⟩
  · rintro ⟨t', ht, hw⟩
    rcases sim.halts_of_halts h ht with ⟨why', s', hs⟩
    rcases sim.halts h hs with ⟨u, hu, hout⟩
    have huniq := ht.unique hu
    refine ⟨s', ?_, ?_⟩
    · rw [hinj huniq.1]
      exact hs
    · rw [← hout, ← huniq.2, hw]

/-- The machines print the same texts, also if they never halt. -/
lemma prints_iff (hout : KeepsOutput stepT outT) (h : R s t) (w : List V) :
    Prints stepS outS s w ↔ Prints stepT outT t w := by
  constructor
  · rintro ⟨s', ⟨n, hn⟩, hw⟩
    rcases sim.steps h hn with ⟨m, t', _, ht', hr⟩
    exact ⟨t', ⟨m, ht'⟩, by rwa [← sim.out hr]⟩
  · rintro ⟨t', ⟨n, hn⟩, hw⟩
    -- Let the first machine go on for `n` steps: the second is then at `t'` or
    -- behind it, unless both have halted before.
    rcases @steps_or_halts S H stepS n s with ⟨s', hs'⟩ | ⟨why, s', hs'⟩
    · rcases sim.steps h hs' with ⟨m, u, hnm, hu, hr⟩
      rw [show m = n + (m - n) by omega] at hu
      refine ⟨s', ⟨n, hs'⟩, ?_⟩
      rw [sim.out hr]
      exact hw.trans (hout.steps (hn.suffix hu))
    · rcases sim.halts h hs' with ⟨u, hu, huout⟩
      refine ⟨s', hs'.1, ?_⟩
      rw [← huout]
      exact Prints.prefix_of_halts hout ⟨t', ⟨n, hn⟩, hw⟩ hu

end Simulates

end Simulation

end Compiscript.Machine
