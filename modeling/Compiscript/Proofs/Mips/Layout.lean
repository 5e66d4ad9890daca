import Compiscript.Proofs.Mips.Code

/-!
# Code and its Lines Side by Side

The code of a program on integers, and where its instructions and its labels are
among the lines.

The number of an instruction and the number of its first line belong together
through the lengths of what stands before. The lines of an instruction have the
label of the instruction and no other, so labels are put in corresponding places.
-/

namespace Compiscript.Mips

open List

open Machine

/-- The variables of code. -/
def namesOf (code : List Instr) : Finset String := (code.flatMap variablesOf).toFinset

/-- The label of the start or of the end of a program. -/
def markInstr (l c : String) : Instr := ⟨.label, .text l, .none, .none, c⟩

lemma ne_markInstr {i : Instr} {l : String} (h : i.op ≠ .label) (c : String) :
    i ≠ markInstr l c := by
  rintro rfl
  exact h rfl

/-- The code of a program on integers: instructions between the two labels, with each label that is
    jumped to in one place, and no more variables than there are registers. -/
structure Segment (code : List Instr) : Prop where
  exists_body : ∃ body c c', code = markInstr "program_start" c ::
    (body ++ [markInstr "program_end" c']) ∧ ∀ i ∈ body, Plain i
  targets : ∀ i ∈ code, ∀ l, jumpOf? i = some l → (Tac.labelsOf code).count l = 1
  few : (namesOf code).card ≤ 16

/-- What stands in the code of a program. -/
inductive Listed : Instr → Prop where
  | plain {i : Instr} (h : Plain i) : Listed i
  | start (c : String) : Listed (markInstr "program_start" c)
  | finish (c : String) : Listed (markInstr "program_end" c)

namespace Segment

variable {code : List Instr} (h : Segment code)

include h

variable {i : Instr}

lemma listed (hi : i ∈ code) : Listed i := by
  obtain ⟨body, c, c', rfl, hbd⟩ := h.exists_body
  rcases mem_cons.1 hi with rfl | hi
  · exact .start c
  rcases mem_append.1 hi with hi | hi
  · exact .plain (hbd i hi)
  · rw [mem_singleton.1 hi]
    exact .finish c'

/-- Only the last instruction is the label of the end. -/
lemma lt_length {n : Nat} (hget : code[n]? = some i)
    (hi : ∀ c, i ≠ markInstr "program_end" c) : n + 1 < code.length := by
  have hlt := (List.getElem?_eq_some_iff.1 hget).1
  by_contra hla
  obtain ⟨body, c, c', rfl, -⟩ := h.exists_body
  have hn : n = (markInstr "program_start" c :: body).length := by
    simp only [length_cons, length_append, length_nil] at hlt hla ⊢
    omega
  rw [hn, ← cons_append, getElem?_concat_length] at hget
  exact hi c' (Option.some.inj hget).symm

omit h in
lemma mem_names (hi : i ∈ code) {x : String} (hx : x ∈ variablesOf i) : x ∈ namesOf code :=
  mem_toFinset.2 (mem_flatMap.2 ⟨i, hi, hx⟩)

end Segment

section Layout

variable {code : List Instr} {ρ : String → Reg} {n : Nat} {i : Instr}

/-- The number of the first line of an instruction. -/
def offset (ρ : String → Reg) (code : List Instr) (n : Nat) : Nat :=
  ((code.take n).flatMap (codeOf ρ)).length

lemma placed_codeOf (hget : code[n]? = some i) :
    Placed (code.flatMap (codeOf ρ)) (codeOf ρ i) (offset ρ code n) := by
  refine ⟨(code.take n).flatMap (codeOf ρ), (code.drop (n + 1)).flatMap (codeOf ρ), ?_, rfl⟩
  obtain ⟨hlt, rfl⟩ := List.getElem?_eq_some_iff.1 hget
  rw [← flatMap_cons, ← drop_eq_getElem_cons hlt, ← flatMap_append,
    take_append_drop]

lemma offset_succ (hget : code[n]? = some i) :
    offset ρ code (n + 1) = offset ρ code n + (codeOf ρ i).length := by
  rw [offset, take_add_one, hget, flatMap_append, length_append]
  rw [Option.toList_some, flatMap_cons, flatMap_nil, append_nil]
  rfl

lemma labelsOf_load_append (a : String) (rest : List Asm) :
    labelsOf (loadCode a ++ rest) = labelsOf rest := by
  unfold loadCode
  split <;> rfl

lemma labelsOf_binaryCode (op : Binary) (rd r1 r2 : Reg) :
    labelsOf (binaryCode op rd r1 r2) = [] := by
  cases op with
  | compare r => cases r <;> rfl
  | _ => rfl

lemma labelsOf_labelCode (l : String) : labelsOf (labelCode l) = [l] := by
  unfold labelCode
  split <;> rfl

lemma labelsOf_codeOf (h : Listed i) : labelsOf (codeOf ρ i) = (Tac.labelOf? i).toList := by
  cases h with
  | start c => exact labelsOf_labelCode _
  | finish c => exact labelsOf_labelCode _
  | plain h =>
    cases h with
    | label hl => exact labelsOf_labelCode _
    | jump => rfl
    | mov ha hx =>
      change labelsOf (if _ then _ else _) = []
      split <;> rfl
    | binary op ha hb hx hone =>
      rw [codeOf_binary, labelsOf_load_append, labelsOf_load_append, labelsOf_binaryCode]
      cases op <;> rfl
    | _ => exact labelsOf_load_append _ _

lemma labelsOf_flatMap (h : ∀ i ∈ code, Listed i) :
    labelsOf (code.flatMap (codeOf ρ)) = Tac.labelsOf code := by
  induction code with
  | nil => rfl
  | cons i rest ih =>
    have hr := ih fun j hj => h j (mem_cons_of_mem i hj)
    rw [flatMap_cons, labelsOf, filterMap_append, ← labelsOf, ← labelsOf,
      labelsOf_codeOf (h i mem_cons_self), hr, Tac.labelsOf, Tac.labelsOf,
      filterMap_cons]
    cases Tac.labelOf? i <;> rfl

variable {l : String}

lemma codeOf_of_labelOf (hl : Tac.labelOf? i = some l) : ∃ rest, codeOf ρ i = .label l :: rest := by
  have hcode : ∀ l, ∃ rest, labelCode l = .label l :: rest := by
    intro l
    unfold labelCode
    split
    · exact ⟨_, rfl⟩
    · exact ⟨_, rfl⟩
  have hop : i.op = .label ∧ i.a1 = .text l := by
    unfold Tac.labelOf? at hl
    split at hl
    · rename_i hop ha
      injection hl with hl
      exact ⟨hop, hl ▸ ha⟩
    · cases hl
  have heq : codeOf ρ i = labelCode l := by
    unfold codeOf
    rw [hop.1, hop.2]
  rw [heq]
  exact hcode l

/-- A label that stands once is found in corresponding places. -/
lemma exists_target (h : ∀ i ∈ code, Listed i)
    (hone : (Tac.labelsOf code).count l = 1) : ∃ m, m < code.length ∧ Tac.target? code l = some m ∧
      target? (code.flatMap (codeOf ρ)) l = some (offset ρ code m) := by
  have hmem : l ∈ Tac.labelsOf code := count_pos_iff.1 (by omega)
  obtain ⟨i, hi, hl⟩ := mem_filterMap.1 hmem
  -- The first place of the label in the code.
  have hso : (Tac.target? code l).isSome = true := by
    rw [Tac.target?, findIdx?_isSome, any_eq_true]
    exact ⟨i, hi, by simpa using hl⟩
  obtain ⟨m, hm⟩ := Option.isSome_iff_exists.1 hso
  obtain ⟨hlt, hat, hbef⟩ := findIdx?_eq_some_iff_getElem.1 hm
  refine ⟨m, hlt, hm, ?_⟩
  have hlab : Tac.labelOf? code[m] = some l := by simpa using hat
  obtain ⟨rest, hcode⟩ := codeOf_of_labelOf (ρ := ρ) hlab
  -- No line in front of it has the label, as no instruction there has.
  have hfront : ∀ a ∈ (code.take m).flatMap (codeOf ρ), labelOf? a ≠ some l := by
    intro a ha hal
    have hin : l ∈ labelsOf ((code.take m).flatMap (codeOf ρ)) :=
      mem_filterMap.2 ⟨a, ha, hal⟩
    rw [labelsOf_flatMap fun j hj => h j (mem_of_mem_take hj)] at hin
    obtain ⟨j, hj, hjl⟩ := mem_filterMap.1 hin
    obtain ⟨k, hk, rfl⟩ := mem_take_iff_getElem.1 hj
    have := hbef k (by omega)
    rw [hjl] at this
    simp at this
  have hasm : code.flatMap (codeOf ρ) = (code.take m).flatMap (codeOf ρ) ++
      .label l :: (rest ++ (code.drop (m + 1)).flatMap (codeOf ρ)) := by
    conv_lhs => rw [← take_append_drop m code, drop_eq_getElem_cons hlt]
    rw [flatMap_append, flatMap_cons, hcode, cons_append]
  have hno : ((code.take m).flatMap (codeOf ρ)).findIdx? (fun a => labelOf? a = some l) =
      none := by
    rw [findIdx?_eq_none_iff]
    intro a ha
    exact decide_eq_false (hfront a ha)
  rw [target?, labelsOf_flatMap h, if_pos hone, hasm, findIdx?_append, hno,
    findIdx?_cons]
  simp [labelOf?, offset]

end Layout

variable {code : List Instr}

lemma Segment.ne_empty_of_jumpOf (hseg : Segment code) {i : Instr} {l : String}
    (hi : i ∈ code) (hl : jumpOf? i = some l) : l ≠ "" := by
  have hone := hseg.targets i hi l hl
  have hmem : l ∈ Tac.labelsOf code := count_pos_iff.1 (by omega)
  obtain ⟨j, hj, hjl⟩ := mem_filterMap.1 hmem
  cases hseg.listed hj with
  | start c =>
    rw [← Option.some.inj hjl]
    decide
  | finish c =>
    rw [← Option.some.inj hjl]
    decide
  | plain hpl =>
    cases hpl with
    | label hlocal =>
      rw [← Option.some.inj hjl]
      exact ne_of_isLocalLabel hlocal (by decide)
    | binary op => cases op <;> cases hjl
    | _ => cases hjl

lemma run_seq {m k : ExceptT LowerFault Lower Unit} {s s' : Lowering}
    (h : m.run.run s = (.ok (), s')) :
    (do m; k : ExceptT LowerFault Lower Unit).run.run s = k.run.run s' := by
  rw [ExceptT.run_bind, StateT.run_bind, h]
  rfl

lemma lower_append (a b : List Instr) : lower (a ++ b) = (do lower a; lower b) :=
  forM_append

lemma run_instruction_end (c : String) (s : Lowering) :
    (Lower.instruction (markInstr "program_end" c)).run.run s =
      (.ok (), { s with asm := s.asm ++ labelCode "program_end" }) := by
  have hafr : Lower.startsAfresh "program_end" = false := by decide
  change (Lower.label (some "program_end")).run.run s = _
  unfold Lower.label
  simp only [hafr]
  change (Except.ok (), { s with
    asm := s.asm ++ [Asm.label "program_end"] ++
      ([Asm.blank, .heading "Exit program"] ++ Lower.systemCall 10) }) = _
  rw [append_assoc]
  rfl

/-- Lowering the code of a program, after anything else, gives each variable a
    register of its own and emits the lines for that choice. -/
lemma exists_lower (hseg : Segment code) (s : Lowering) :
    ∃ rs : Registers, rs.Within (namesOf code) ∧
      (∀ x ∈ namesOf code, (rs.ofVariable.get? (some x)).isSome = true) ∧
      (lower code).run.run s = (.ok (), { s with
        asm := s.asm ++ code.flatMap (codeOf rs.choice), registers := rs, pending := [],
        stringVars := [] }) := by
  obtain ⟨body, c, c', hcode, hpl⟩ := hseg.exists_body
  have hmem : ∀ i ∈ body, i ∈ code := by
    intro i hi
    rw [hcode]
    simp [hi]
  -- The first label forgets what was lowered before.
  let s1 : Lowering := { s with
    asm := s.asm ++ [.label "program_start"], registers := .empty, pending := [],
    stringVars := [] }
  obtain ⟨rs, hrs, -, hused, hrun⟩ := lowers_all hseg.few hpl
    (fun i hi l => hseg.ne_empty_of_jumpOf (hmem i hi))
    (fun i hi y => Segment.mem_names (hmem i hi)) s1 (Registers.within_empty _) rfl
  refine ⟨rs, hrs, ?_, ?_⟩
  · intro x hx
    refine hused x ?_
    rw [namesOf, mem_toFinset, hcode, flatMap_cons, flatMap_append] at hx
    simpa [variablesOf, markInstr] using hx
  · have hbd := hrun rs.choice rs.agrees_choice
    have hf : (Lower.instruction (markInstr "program_start" c)).run.run s = (.ok (), s1) := rfl
    rw [hcode, show lower (markInstr "program_start" c :: (body ++ [markInstr "program_end" c'])) =
      (do Lower.instruction (markInstr "program_start" c)
          lower (body ++ [markInstr "program_end" c'])) from rfl, run_seq hf, lower_append,
      run_seq hbd]
    change (do Lower.instruction (markInstr "program_end" c'); pure () :
      ExceptT LowerFault Lower Unit).run.run _ = _
    rw [run_seq (run_instruction_end c' _), flatMap_cons, flatMap_append,
      flatMap_cons, flatMap_nil, append_nil, ← append_assoc, ← append_assoc]
    rfl

end Compiscript.Mips
