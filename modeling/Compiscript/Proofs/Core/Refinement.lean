import Compiscript.Proofs.Core.StmtTree

/-!
# Code that Does What a Program Says

The code of a whole program, run from its start label, against the program run
by the evaluator with a scope for every block.

The two agree in everything that can be observed: which texts are printed, in
what order, whether there is an end, whether that is a division by zero, and
what the variables declared outside all blocks hold at the end.
-/

namespace Compiscript.Core

open List

open Machine Tac Gen

variable {V : Type} [DecidableEq V]

section Bound

variable {C : Type}

/-- A run that did not come upon a name without a value. -/
def Bound (r : Ending × C) : Prop := ∀ f, r.1 = .fault f → f = .zeroDivision

lemma Bound.andThen {r : Ending × C} {next : C → Ending × C} (h : Bound r)
    (hnx : ∀ c, Bound (next c)) : Bound (Core.andThen r next) := by
  rcases r with ⟨ending, c⟩
  cases ending with
  | done => exact hnx c
  | fault f => exact h
  | timeout => exact h

lemma Bound.withValue {α : Type} {r : Except Fault α} {c : C} {next : α → Ending × C}
    (h : ∀ f, r = .error f → f = .zeroDivision) (hnx : ∀ a, Bound (next a)) :
    Bound (Core.withValue r c next) := by
  cases r with
  | ok a => exact hnx a
  | error f =>
    intro f' hf'
    injection hf' with hf'
    exact hf' ▸ h f rfl

lemma Bound.repeatWhile {test : C → Except Fault Bool} {body : C → Ending × C}
    (htest : ∀ c f, test c = .error f → f = .zeroDivision) (hbd : ∀ c, Bound (body c)) (n : Nat)
    (c : C) : Bound (Core.repeatWhile test body n c) := by
  induction n generalizing c with
  | zero => exact fun f hf => nomatch hf
  | succ n ih =>
    refine Bound.withValue (htest c) fun go => ?_
    cases go with
    | true => exact (hbd c).andThen ih
    | false => exact fun f hf => nomatch hf

variable (A : Arith V)

variable {f : Fault} {e : Expr}

lemma error_of_bind {α β : Type} {r : Except Fault α} {g : α → Except Fault β}
    (h : r.bind g = .error f) : r = .error f ∨ ∃ a, g a = .error f := by
  cases r with
  | error f' =>
    injection h with h
    exact .inl (h ▸ rfl)
  | ok a => exact .inr ⟨a, h⟩

lemma evalIn_fault {store : String → V} (h : evalIn A store e = .error f) : f = .zeroDivision := by
  induction e with
  | int _ | bool _ | var _ => cases h
  | minus e ih | bang e ih => rcases error_of_bind h with h | ⟨a, h⟩; exacts [ih h, nomatch h]
  | binary op a b iha ihb =>
    rcases error_of_bind h with h | ⟨x, h⟩
    · exact iha h
    · rcases error_of_bind h with h | ⟨y, h⟩
      · exact ihb h
      · split at h
        · cases h
        · injection h with h
          exact h.symm
  | andAlso a b iha ihb =>
    rcases error_of_bind h with h | ⟨x, h⟩
    · exact iha h
    · split at h
      · cases h
      · exact ihb h
  | orElse a b iha ihb =>
    rcases error_of_bind h with h | ⟨x, h⟩
    · exact iha h
    · split at h
      · exact ihb h
      · cases h
  | question c a b ihc iha ihb =>
    rcases error_of_bind h with h | ⟨x, h⟩
    · exact ihc h
    · split at h
      · exact ihb h
      · exact iha h

lemma test_fault {c : Config (String → V) V}
    (h : c.test A Memory.flat e = .error f) : f = .zeroDivision := by
  cases he : evalIn A c.env e with
  | ok v => rw [evalIn] at he; rw [Config.test, Config.eval, he] at h; cases h
  | error f' =>
    have hf' := evalIn_fault A he
    rw [evalIn] at he
    rw [Config.test, Config.eval, he] at h
    injection h with h
    rw [← h, hf']

lemma exec_flat_fault (fuel : Nat) (s : Stmt) (c : Config (String → V) V) :
    Bound (exec A Memory.flat fuel s c) := by
  have hdn : ∀ c : Config (String → V) V, Bound (Ending.done, c) := fun c f hf => nomatch hf
  induction s generalizing c with
  | skip => exact hdn c
  | seq a b iha ihb => exact (iha c).andThen ihb
  | declare | assign | print => exact .withValue (fun f => evalIn_fault A) fun v => hdn _
  | block s ih => exact (ih _).andThen hdn
  | branch e a b iha ihb =>
    refine .withValue (fun f => test_fault A) fun go => ?_
    cases go with
    | true => exact (iha _).andThen hdn
    | false => exact (ihb _).andThen hdn
  | loop e s ih =>
    exact .repeatWhile (fun c f => test_fault A) (fun c => (ih _).andThen hdn) fuel c

end Bound

/-- The code does what the program says, from any store. The program starts with no variables. -/
structure Implements (A : Arith V) (code : List Instr) (p : Stmt) (store : String → V) :
    Prop where
  /-- Same end, with the same output and the same variables of the outermost
      scope. -/
  finishes (vars : List (String × V)) (w : List V) :
    (∃ fuel, exec A Memory.blocks fuel p ⟨[[]], []⟩ = (.done, ⟨[vars], w⟩)) ↔
      ∃ t, Halts (step A code) (.start code store) .finished t ∧ t.out = w ∧
        vars = p.binds.map fun x => (x, t.store x)
  /-- Same divisions by zero, with the same output before. -/
  faults (w : List V) :
    (∃ fuel env, exec A Memory.blocks fuel p ⟨[[]], []⟩ = (.fault .zeroDivision, ⟨env, w⟩)) ↔
      ∃ t, Halts (step A code) (.start code store) .zeroDivision t ∧ t.out = w
  /-- Same output, also if there is no end. -/
  prints (w : List V) :
    (∃ fuel, w <+: (exec A Memory.blocks fuel p ⟨[[]], []⟩).2.out) ↔
      Prints (step A code) State.out (.start code store) w
  /-- Neither stops for another reason. -/
  bound (fuel : Nat) : Bound (exec A Memory.blocks fuel p ⟨[[]], []⟩)
  never_stuck (t : State V) : ¬Halts (step A code) (.start code store) .stuck t

section Program

variable {A : Arith V} {p : Stmt} {b : List Instr} {q : Temps} {n : Nat}

lemma nodup_labelsOf_programCode (h : Labels 0 n (labelsOf b)) :
    (labelsOf (programCode b)).Nodup := by
  have hlabs : labelsOf (programCode b) = "program_start" :: (labelsOf b ++ ["program_end"]) := by
    change "program_start" :: labelsOf (b ++ _) = _
    rw [labelsOf_append]
    rfl
  have hmade : ∀ l ∈ labelsOf b, ∃ i, l = labelName i := fun l hl => h.exists_of_mem hl
  rw [hlabs, nodup_cons, nodup_append]
  refine ⟨?_, h.nodup, nodup_singleton _, ?_⟩
  · intro hmem
    rcases mem_append.1 hmem with hmem | hmem
    · obtain ⟨i, hi⟩ := hmade _ hmem
      exact labelName_ne (by decide) i hi.symm
    · exact absurd (mem_singleton.1 hmem) (by decide)
  · rintro l hl m hm rfl
    obtain ⟨i, rfl⟩ := hmade _ hl
    exact labelName_ne_end i (mem_singleton.1 hm)

/-- What the machine does, for every number of rounds that the evaluator is given. -/
def Tracks (A : Arith V) (code : List Instr) (s : State V) (fuel : Nat) :
    Ending × Config (String → V) V → Prop
  | (.done, c) => ∃ t, Halts (step A code) s .finished t ∧ t.out = c.out ∧
      ∀ x, isTempName x = false → t.store x = c.env x
  | (.fault _, c) => ∃ t, Halts (step A code) s .zeroDivision t ∧ t.out = c.out
  | (.timeout, c) => ∃ k t, fuel ≤ k ∧ Steps (step A code) k s t ∧ t.out = c.out

/-- A run of the code goes past the first label, through the statements and to the last label. -/
lemma StmtCodes.tracks (h : StmtCodes A p .empty 0 b q n) (store : String → V) (fuel : Nat) :
    Tracks A (programCode b) (.start (programCode b) store) fuel
      (exec A Memory.flat fuel p ⟨store, []⟩) := by
  have hnd := nodup_labelsOf_programCode h.labels
  have hpd : Placed (programCode b) (programCode b) 0 := .whole _
  have htar : target? (programCode b) "program_start" = some 0 :=
    target?_of_nodup hnd hpd.get rfl
  have hst : State.start (programCode b) store = ⟨0, store, []⟩ := by
    rw [State.start, htar]
    rfl
  have hfst : step A (programCode b) ⟨0, store, []⟩ = .ok ⟨1, store, []⟩ :=
    step_label hpd.get (by decide)
  have hrun := h.run hpd.tail.left hnd
    (⟨rfl, fun _ _ => rfl, rfl⟩ : Mirrors ⟨1, store, []⟩ 1 ⟨store, []⟩) fuel
  rw [hst]
  have hfol := hrun.of_step hfst
  generalize exec A Memory.flat fuel p ⟨store, []⟩ = r at hfol
  rcases r with ⟨ending, c⟩
  cases ending with
  | done =>
    obtain ⟨t, ht, hmir⟩ := hfol
    have hla := hpd.tail.right.get
    rw [Nat.zero_add, ← hmir.pc_eq] at hla
    exact ⟨t, ⟨ht, step_end hla⟩, hmir.out_eq, hmir.store_eq⟩
  | fault f => exact hfol
  | timeout => exact hfol

namespace Tracks

variable {code : List Instr} {s t : State V} {why : Halt}
  {r : Nat → Ending × Config (String → V) V}

/-- If the machine halts, the evaluator comes to an end with more rounds than
    the machine has steps. -/
lemma exists_of_halts (h : ∀ fuel, Tracks A code s fuel (r fuel))
    (ht : Halts (step A code) s why t) : ∃ fuel,
      (why = .finished ∧ ∃ c, r fuel = (.done, c) ∧ t.out = c.out ∧
        ∀ x, isTempName x = false → t.store x = c.env x) ∨
      (why = .zeroDivision ∧ ∃ f c, r fuel = (.fault f, c) ∧ t.out = c.out) := by
  obtain ⟨⟨m, hm⟩, hend⟩ := ht
  refine ⟨m + 1, ?_⟩
  have hfu := h (m + 1)
  rcases hr : r (m + 1) with ⟨ending, c⟩
  rw [hr] at hfu
  cases ending with
  | done =>
    obtain ⟨u, hu, hout, hsto⟩ := hfu
    obtain ⟨rfl, rfl⟩ := hu.unique ⟨⟨m, hm⟩, hend⟩
    exact .inl ⟨rfl, c, rfl, hout, hsto⟩
  | fault f =>
    obtain ⟨u, hu, hout⟩ := hfu
    obtain ⟨rfl, rfl⟩ := hu.unique ⟨⟨m, hm⟩, hend⟩
    exact .inr ⟨rfl, f, c, rfl, hout⟩
  | timeout =>
    obtain ⟨k, u, hk, hu, _⟩ := hfu
    have := hu.le_of_halted hm hend
    omega

/-- Whatever one of them prints, the other one does. -/
lemma prints_iff (h : ∀ fuel, Tracks A code s fuel (r fuel)) (w : List V) :
    (∃ fuel, w <+: (r fuel).2.out) ↔ Prints (step A code) State.out s w := by
  constructor
  · rintro ⟨fuel, hw⟩
    have hfu := h fuel
    rcases hr : r fuel with ⟨ending, c⟩
    rw [hr] at hfu hw
    cases ending with
    | done =>
      obtain ⟨u, hu, hout, _⟩ := hfu
      exact ⟨u, hu.1, hout ▸ hw⟩
    | fault f =>
      obtain ⟨u, hu, hout⟩ := hfu
      exact ⟨u, hu.1, hout ▸ hw⟩
    | timeout =>
      obtain ⟨k, u, _, hu, hout⟩ := hfu
      exact ⟨u, ⟨k, hu⟩, hout ▸ hw⟩
  · rintro ⟨u, ⟨m, hm⟩, hw⟩
    refine ⟨m, ?_⟩
    have hfu := h m
    rcases hr : r m with ⟨ending, c⟩
    rw [hr] at hfu
    have hkeeps := keepsOutput A code
    have hpri : Prints (step A code) State.out s w := ⟨u, ⟨m, hm⟩, hw⟩
    cases ending with
    | done =>
      obtain ⟨v, hv, hout, _⟩ := hfu
      exact hout ▸ hpri.prefix_of_halts hkeeps hv
    | fault f =>
      obtain ⟨v, hv, hout⟩ := hfu
      exact hout ▸ hpri.prefix_of_halts hkeeps hv
    | timeout =>
      obtain ⟨k, v, hk, hv, hout⟩ := hfu
      rw [show k = m + (k - m) by omega] at hv
      exact hout ▸ hw.trans (hkeeps.steps (hm.suffix hv))

end Tracks

lemma WellNamed.agree (h : WellNamed p) (A : Arith V) (store : String → V) (fuel : Nat) :
    Agree [p.binds] (exec A Memory.blocks fuel p ⟨[[]], []⟩)
      (exec A Memory.flat fuel p ⟨store, []⟩) := by
  have hagree : Agree [p.binds ++ []] (exec A Memory.blocks fuel p (Config.shown [[]] ⟨store, []⟩))
      (exec A Memory.flat fuel p ⟨store, []⟩) := by
    refine @exec_blocks V [] _ A fuel p [] ?_ h.nodup ?_ h.visible _
    · exact nodup_nil
    · exact fun x _ => not_mem_nil
  rw [append_nil] at hagree
  exact hagree

variable {store : String → V} {t : Tree}

omit [DecidableEq V] in
/-- Names of the outermost scope are no temporaries, so their values are those of the evaluator. -/
lemma WellNamed.shown_binds (h : WellNamed p) {store' : String → V}
    (hsto : ∀ x, isTempName x = false → store x = store' x) :
    shown [p.binds] store' = [p.binds.map fun x => (x, store x)] := by
  refine congrArg (fun vars => [vars]) (map_congr_left fun x hx => ?_)
  rw [hsto x (h.noTemps x (p.binds_subset hx))]

lemma implements_of_tracks {code : List Instr} (hnam : WellNamed p)
    (h : ∀ fuel, Tracks A code (.start code store) fuel
      (exec A Memory.flat fuel p ⟨store, []⟩)) : Implements A code p store where
  finishes vars w := by
    constructor
    · rintro ⟨fuel, hex⟩
      have hagree := hnam.agree A store fuel
      have hfu := h fuel
      rw [hex] at hagree
      rcases hr : exec A Memory.flat fuel p ⟨store, []⟩ with ⟨ending, c⟩
      rw [hr] at hagree hfu
      obtain ⟨rfl, hout, henv⟩ := hagree
      obtain ⟨t, ht, htout, hsto⟩ := hfu
      refine ⟨t, ht, htout.trans hout.symm, ?_⟩
      have hvs := (henv rfl).trans (hnam.shown_binds hsto)
      injection hvs
    · rintro ⟨t, ht, rfl, rfl⟩
      obtain ⟨fuel, ⟨-, c, hr, hout, hsto⟩ | ⟨hwhy, -⟩⟩ := Tracks.exists_of_halts h ht
      · obtain ⟨hendi, hout', henv⟩ := hnam.agree A store fuel
        rw [hr] at hendi hout' henv
        refine ⟨fuel, Prod.ext hendi ?_⟩
        rw [← hnam.shown_binds hsto, ← henv hendi, hout, ← hout']
      · cases hwhy
  faults w := by
    constructor
    · rintro ⟨fuel, env, hex⟩
      have hagree := hnam.agree A store fuel
      have hfu := h fuel
      rw [hex] at hagree
      rcases hr : exec A Memory.flat fuel p ⟨store, []⟩ with ⟨ending, c⟩
      rw [hr] at hagree hfu
      obtain ⟨rfl, hout, -⟩ := hagree
      obtain ⟨t, ht, htout⟩ := hfu
      exact ⟨t, ht, htout.trans hout.symm⟩
    · rintro ⟨t, ht, rfl⟩
      obtain ⟨fuel, ⟨hwhy, -⟩ | ⟨-, f, c, hr, hout⟩⟩ := Tracks.exists_of_halts h ht
      · cases hwhy
      · obtain ⟨hendi, hout', -⟩ := hnam.agree A store fuel
        have hf := exec_flat_fault A fuel p ⟨store, []⟩
        rw [hr] at hendi hout' hf
        rw [hf f rfl] at hendi
        refine ⟨fuel, (exec A Memory.blocks fuel p ⟨[[]], []⟩).2.env, Prod.ext hendi ?_⟩
        rw [hout, ← hout']
  prints w := by
    rw [← Tracks.prints_iff h]
    refine exists_congr fun fuel => ?_
    rw [(hnam.agree A store fuel).2.1]
  bound fuel f hf := by
    rw [(hnam.agree A store fuel).1] at hf
    exact exec_flat_fault A fuel p _ f hf
  never_stuck t ht := by
    obtain ⟨fuel, ⟨hwhy, -⟩ | ⟨hwhy, -⟩⟩ := Tracks.exists_of_halts h ht
    · cases hwhy
    · cases hwhy

lemma WellNamed.plain (h : WellNamed p) : p.Plain :=
  h.visible.plain (by simp) h.noTemps

/-- If the generator turns a tree into code for the statements of a program, the
    code does what the program says. -/
lemma exists_implements_of (hnam : WellNamed p)
    (hcode : ∀ (V : Type) [DecidableEq V] (A : Arith V), ∃ b q n,
      Emits (generate t) .empty 0 .none (programCode b) q n ∧ StmtCodes A p .empty 0 b q n) :
    ∃ g, Generator.run t (.start none) = (.ok .none, g) ∧
      ∀ (V : Type) [DecidableEq V] (A : Arith V) (store : String → V),
        Implements A g.code p store := by
  -- The code is the same for all arithmetics, as there is one run of the generator.
  have hrun : ∀ (V : Type) [DecidableEq V] (A : Arith V), ∃ b q n, Generator.run t (.start none) =
        (.ok .none, { Generator.start none with code := programCode b, temps := q, labels := n }) ∧
      StmtCodes A p .empty 0 b q n := by
    intro V _ A
    obtain ⟨b, q, n, hem, hcds⟩ := hcode V A
    exact ⟨b, q, n, hem (.start none) rfl rfl rfl rfl, hcds⟩
  obtain ⟨b, q, n, hb, -⟩ := hrun Int Arith.integers
  refine ⟨_, hb, fun V _ A store => ?_⟩
  obtain ⟨b', q', n', hb', hcds⟩ := hrun V A
  have hcode : programCode b = programCode b' := by
    rw [hb] at hb'
    injection hb' with _ hb'
    exact congrArg Generator.code hb'
  change Implements A (programCode b) p store
  rw [hcode]
  exact implements_of_tracks hnam (hcds.tracks store)

/-- The generator makes code for every program of the core, and the code does
    what the program says. -/
lemma exists_implements (h : program? t = some p) (hnam : WellNamed p) :
    ∃ g, Generator.run t (.start none) = (.ok .none, g) ∧
      ∀ (V : Type) [DecidableEq V] (A : Arith V) (store : String → V),
        Implements A g.code p store :=
  exists_implements_of hnam fun _ _ _ => exists_program h hnam.plain

end Program

end Compiscript.Core
