import Compiscript.Proofs.Mips.Waiting

/-!
# Functions Are Lowered Independently

The label of a function, like that of the start of the program, forgets the registers
of variables, the operands that wait and the marks of strings. What is left are the
strings and the lines themselves.

## Theorems

* `Mips.lowered_alike`: What was lowered before a function leaves no trace in its lines.
-/

namespace Compiscript.Mips

open Lower

/-- A state with more lines in front of its own. -/
def Lowering.behind (s : Lowering) (lines : List Asm) : Lowering := { s with asm := lines ++ s.asm }

variable {α : Type} {m : Lower α} {w : Wanted} {l : String} {s : Lowering}

/-- A step does not look at the lines that are there: with more of them, it does the same. -/
lemma Made.run_behind (h : Made .all w m) (lines : List Asm)
    (s : Lowering) : m.run (s.behind lines) = ((m.run s).1, (m.run s).2.behind lines) := by
  induction h generalizing s with
  | both _ _ ihm ihk =>
    rw [StateT.run_bind, ihm s, StateT.run_bind]
    exact ihk _ _
  | less _ ih => exact ih s
  | emitAll | loadString =>
    exact Prod.ext rfl (congrArg (Lowering.mk · _ _ _ _) (List.append_assoc ..))
  | @waiting _ _ _ k _ heq ih =>
    change (k (s.behind lines)).run (s.behind lines) = _
    rw [heq (s.behind lines) s rfl, ih s (fun _ _ _ => trivial) s]
    rfl
  | _ => rfl

lemma Made.exists_lines (h : Made .all w m) (s : Lowering) :
    ∃ lines, (m.run s).2.asm = s.asm ++ lines := by
  have hbeh := h.run_behind s.asm { s with asm := [] }
  rw [Lowering.behind, List.append_nil] at hbeh
  exact ⟨_, congrArg (fun r => r.2.asm) hbeh⟩

lemma run_get_bind {β : Type} (k : Lowering → Lower β) (s : Lowering) :
    (get >>= k : Lower β).run s = (k s).run s := rfl

/-- The name of a label. -/
def labelName? (i : Instr) : Option String :=
  orElseText (operandText i.res) (operandText i.a1)

/-- The label of a function or of the start of a program forgets everything but the strings. -/
lemma run_label_afresh {i : Instr} (hop : i.op = .label)
    (hname : labelName? i = some l) (hl : l = "program_start" ∨ ∃ f, l = "func_" ++ f)
    (s : Lowering) : (instruction i).run.run s = (.ok (), { Lowering.start with
      asm := s.asm ++ [.label l], strings := s.strings }) := by
  have hafr : startsAfresh l = true := by
    rcases hl with rfl | ⟨f, rfl⟩
    · decide
    · simp [startsAfresh, Text.startsWith]
  have hend : l ≠ "program_end" := by
    rintro rfl
    revert hafr
    decide
  have hinstr : instruction i = label (some l) := by
    rw [← hname]
    obtain ⟨op, a1, a2, res, c⟩ := i
    obtain rfl : op = .label := hop
    rfl
  rw [hinstr]
  unfold label
  simp only [hafr, hend, if_true, if_false]
  rfl

lemma lower_singleton (i : Instr) : lower [i] = instruction i := by simp [lower]

lemma exists_of_lower_append {a b : List Instr} {s' : Lowering}
    (h : (lower (a ++ b)).run.run s = (.ok (), s')) :
    ∃ s1, (lower a).run.run s = (.ok (), s1) ∧ (lower b).run.run s1 = (.ok (), s') := by
  rw [lower_append, ExceptT.run_bind, StateT.run_bind] at h
  cases hrun : (lower a).run.run s with
  | mk r s1 =>
    rw [hrun] at h
    cases r with
    | error e => cases h
    | ok u => exact ⟨s1, rfl, h⟩

/-- Behind such a label, code is lowered from a state without registers, operands and marks on. -/
lemma exists_afresh {before code : List Instr} {start : Instr}
    (hop : start.op = .label) (hname : labelName? start = some l)
    (hl : l = "program_start" ∨ ∃ f, l = "func_" ++ f)
    (hrun : (lower (before ++ start :: code)).run.run .start = (.ok (), s)) :
    ∃ b : Lowering, b.registers = .empty ∧ b.pending = [] ∧ b.stringVars = [] ∧
      ∀ code', (lower (before ++ start :: code')).run.run .start = (lower code').run.run b := by
  obtain ⟨s0, hbef, -⟩ := exists_of_lower_append hrun
  refine ⟨{ Lowering.start with asm := s0.asm ++ [.label l], strings := s0.strings }, rfl, rfl, rfl,
    fun code' => ?_⟩
  rw [lower_append, run_seq hbef]
  exact run_seq (run_label_afresh hop hname hl s0)

/-- From the label of a function or of the start of the program on, lowering does the same from any
    two states with the same strings: it ends in the same way, adds the same lines, and leaves the
    same strings, registers, waiting operands and marks behind. -/
theorem lowered_alike {i : Instr} {rest : List Instr} {l : String} (hop : i.op = .label)
    (hname : labelName? i = some l) (hl : l = "program_start" ∨ ∃ f, l = "func_" ++ f)
    {s t : Lowering} (hstrings : s.strings = t.strings) :
    ∃ (r : Except LowerFault Unit) (u : Lowering),
      (lower (i :: rest)).run.run s = (r, { u with asm := s.asm ++ u.asm }) ∧
      (lower (i :: rest)).run.run t = (r, { u with asm := t.asm ++ u.asm }) := by
  -- All that is left behind the label: the strings, and lines that make no difference.
  let b : Lowering := { Lowering.start with asm := [.label l], strings := s.strings }
  have hfrom : ∀ s' : Lowering, s'.strings = s.strings → (lower (i :: rest)).run.run s' =
      (((lower rest).run.run b).1, ((lower rest).run.run b).2.behind s'.asm) := by
    intro s' hs'
    have hf : (Lower.instruction i).run.run s' = (.ok (), b.behind s'.asm) := by
      rw [run_label_afresh hop hname hl, hs']
      rfl
    change (do Lower.instruction i; lower rest : ExceptT LowerFault Lower Unit).run.run s' = _
    rw [run_seq hf]
    exact (made_all rest).run_behind s'.asm b
  exact ⟨_, _, hfrom s rfl, hfrom t hstrings.symm⟩

/-- A function that prints a string and its argument. -/
def greeting : List Instr :=
  [.of .label (.text "func_greet") .none .none,
    .of .enter (.int 0) .none .none,
    .of .mov (.text "\"hola\"") .none (.text "x"),
    .of .print (.text "x") .none .none,
    .of .print (.text "z") .none .none,
    .of .ret (.text "param0") .none .none]

/-- A state with variables in registers, a string among them and an operand that waits. -/
def midway : Lowering :=
  ((lower [.of .mov (.text "1") .none (.text "x"),
    .of .call (.text "func_toString") .none (.text "z"),
    .of .param (.text "x") .none .none]).run.run .start).2

theorem lowered_alike_greeting : midway.pending = [some "x"] ∧ midway.stringVars = [some "z"] ∧
      ∃ (r : Except LowerFault Unit) (u : Lowering),
        (lower greeting).run.run midway = (r, { u with asm := midway.asm ++ u.asm }) ∧
        (lower greeting).run.run .start = (r, { u with asm := Lowering.start.asm ++ u.asm }) :=
  ⟨by decide, by decide, lowered_alike rfl rfl (.inr ⟨"greet", by decide⟩) rfl⟩

end Compiscript.Mips
