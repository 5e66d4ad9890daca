import Compiscript.Proofs.Mips.Made

/-!
# Operands That Wait for a Call

What lowering does with the operands that wait for a call, and when it fails.

Only two operations have to do with what waits: passing an operand lets it wait, and
a call takes all that is there. Besides them the start of a function or of the
program forgets it. Everything else is made of small steps that leave it alone.
-/

namespace Compiscript.Mips

open Lower

/-- A step of lowering that leaves alone what waits for a call. -/
def Quiet {α : Type} (m : Lower α) : Prop := ∀ s, (m.run s).2.pending = s.pending

/-- Steps that have nothing to do with what waits leave it alone. -/
lemma Made.quiet {p : Powers} {w : Wanted} {α : Type} {m : Lower α} (h : Made p w m)
    (hp : ¬ p.waits) : Quiet m := by
  induction h with
  | both _ _ ihm ihk =>
    intro s
    rw [StateT.run_bind]
    exact (ihk _ _).trans (ihm s)
  | less _ ih => exact ih
  | waiting hW | param hW | clearPending hW | forget hW => exact absurd hW hp
  | _ => exact fun _ => rfl

/-! ### Instructions -/

/-- An instruction has what lowering asks for: a label and a call have a name, and
    the size of a function is that of an empty one. -/
structure Accepted (i : Instr) : Prop where
  label (h : i.op = .label) : ∃ l, i.a1 = .text l
  call (h : i.op = .call) : ∃ l, i.a1 = .text l
  enter (h : i.op = .enter) : i.a1 = .int 0

/-- What waits after an instruction, if nothing else than a call takes it. -/
def waitingAfter (i : Instr) (waiting : List (Option String)) : List (Option String) :=
  match i.op with
  | .param => waiting ++ [operandText i.a1]
  | .call => []
  | _ => waiting

lemma run_lift (m : Lower Unit) (s : Lowering) :
    (liftM m : ExceptT LowerFault Lower Unit).run.run s = (.ok (), (m.run s).2) := by
  change ((Except.ok <$> m : Lower (Except LowerFault Unit)).run s) = _
  rw [StateT.run_map]
  rfl

lemma pending_call (l : String) (res : Option String) (s : Lowering) :
    ((call l res).run s).2.pending = [] := by
  unfold call
  dsimp only
  split <;> (rw [StateT.run_bind]; rfl)

lemma exists_label (l : String) (s : Lowering) :
    ∃ s', (label (some l)).run.run s = (.ok (), s') ∧ (s.pending = [] → s'.pending = []) := by
  unfold label
  by_cases hend : l = "program_end"
  · have hfresh : startsAfresh "program_end" = false := by decide
    simp only [hend, hfresh, if_true]
    exact ⟨_, rfl, fun h => h⟩
  · by_cases hfresh : startsAfresh l = true
    · simp only [hfresh, hend, if_true, if_false]
      exact ⟨_, rfl, fun _ => rfl⟩
    · simp only [hfresh, hend, if_false]
      exact ⟨_, rfl, fun h => h⟩

lemma exists_orElseText (a : Option String) (l : String) :
    ∃ l', orElseText a (some l) = some l' := by
  unfold orElseText
  split <;> exact ⟨_, rfl⟩

lemma run_enterFunction (s : Lowering) :
    (enterFunction (some "0")).run.run s = (.ok (), (enter.run s).2) := by
  have hsz : (Text.isNumeral "0".toList && (Text.readInt? "0").isNone) = false := by decide
  unfold enterFunction
  simp only [hsz]
  exact run_lift enter s

lemma exists_instruction {i : Instr} (h : Accepted i) (s : Lowering) :
    ∃ s', (instruction i).run.run s = (.ok (), s') ∧
      ((i.op = .label → s.pending = []) → s'.pending = waitingAfter i s.pending) := by
  -- All but three operations leave alone what waits, and most of them always end well.
  have hqu : ∀ {m : Lower Unit}, instruction i = liftM m → i.op ∉ waitOps →
      waitingAfter i s.pending = s.pending →
      ∃ s', (instruction i).run.run s = (.ok (), s') ∧
        ((i.op = .label → s.pending = []) → s'.pending = waitingAfter i s.pending) := by
    intro m heq hop hwai
    have hmade : Made ⟨False, True, True, fun _ => True⟩ _ (instruction i).run :=
      made_instruction (fun _ => trivial) hop (fun _ => trivial) (fun _ _ _ => trivial)
        fun _ _ => trivial
    have hkept := hmade.quiet not_false s
    rw [heq, run_lift] at hkept
    exact ⟨_, heq ▸ run_lift m s, fun _ => hkept.trans hwai.symm⟩
  obtain ⟨op, a1, a2, res, c⟩ := i
  cases op with
  | label =>
    obtain ⟨l, rfl⟩ := h.label rfl
    obtain ⟨l', hl'⟩ := exists_orElseText (operandText res) l
    obtain ⟨s', hrun, hpen⟩ := exists_label l' s
    refine ⟨s', ?_, fun hlab => (hpen (hlab rfl)).trans (hlab rfl).symm⟩
    change (label (orElseText (operandText res) (some l))).run.run s = _
    rw [hl']
    exact hrun
  | param => exact ⟨_, rfl, fun _ => rfl⟩
  | call =>
    obtain ⟨l, rfl⟩ := h.call rfl
    exact ⟨_, run_lift _ s, fun _ => pending_call l _ s⟩
  | enter =>
    cases h.enter rfl
    exact ⟨_, run_enterFunction s, fun _ => rfl⟩
  | leave => exact ⟨s, rfl, fun _ => rfl⟩
  | _ => exact hqu rfl (by simp [waitOps]) rfl

/-! ### Code -/

/-- Code is lowered from its beginning to its end, and these operands wait then. -/
def Waits (code : List Instr) (waiting : List (Option String)) : Prop :=
  ∃ s, (lower code).run.run .start = (.ok (), s) ∧ s.pending = waiting

namespace Waits

variable {code : List Instr} {waiting : List (Option String)}

lemma nil : Waits [] [] := ⟨.start, rfl, rfl⟩

lemma concat (h : Waits code waiting) {i : Instr} (hi : Accepted i)
    (hlab : i.op = .label → waiting = []) : Waits (code ++ [i]) (waitingAfter i waiting) := by
  obtain ⟨s, hrun, rfl⟩ := h
  obtain ⟨s', hla, hpen⟩ := exists_instruction hi s
  refine ⟨s', ?_, hpen hlab⟩
  rw [lower_append, run_seq hrun]
  exact run_seq hla

lemma exists_program (h : Waits code waiting) : ∃ text, program code = .ok text := by
  obtain ⟨s, hrun, -⟩ := h
  have hrun : (lower code).run .start = (.ok (), s) := hrun
  rw [program, hrun]
  exact ⟨_, rfl⟩

end Waits

end Compiscript.Mips
