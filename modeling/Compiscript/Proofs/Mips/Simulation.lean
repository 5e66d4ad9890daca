import Compiscript.Proofs.Mips.Layout
import Compiscript.Proofs.Mips.Operations

/-!
# Assembly that Goes Along with its Code

The lines for code on integers, run by the machine for assembly, against the
code itself, run with arithmetic on words.

Each step of the code is answered by the lines of its instruction. From one step
this carries over to whole runs, as it does for any two machines of which one goes
along with the other.

## Theorems

* `Mips.lowered_segment_implements`: The lines do what the code does.
-/

namespace Compiscript.Mips

open List

open Machine

/-- Why the lines stop where the code does. -/
def reason : Tac.Halt → Halt
  | .finished => .exit
  | .zeroDivision => .zeroDivision
  | .stuck => .stuck

lemma reason_injective : Function.Injective reason := by
  intro a b h
  cases a <;> cases b <;> first | rfl | cases h

/-- States of the two machines that belong together. -/
structure Along (ρ : String → Reg) (code : List Instr) (s : Tac.State (BitVec 32)) (t : State) :
    Prop where
  out : s.out = t.out
  bound : s.pc < code.length
  pc : t.pc = offset ρ code s.pc
  shows : Shows ρ (namesOf code) s.store t.regs

/-- What the lines do, given what the next step of the code is. -/
def Answers (ρ : String → Reg) (code : List Instr) (t : State) :
    Except Tac.Halt (Tac.State (BitVec 32)) → Prop
  | .ok s' => ∃ n t', Steps (step (code.flatMap (codeOf ρ))) (n + 1) t t' ∧ Along ρ code s' t'
  | .error why => why ≠ .stuck ∧
    ∃ t', Halts (step (code.flatMap (codeOf ρ))) t (reason why) t' ∧ t'.out = t.out

section Step

variable {code : List Instr} {ρ : String → Reg} {s : Tac.State (BitVec 32)} {t t' : State}
  {i : Instr} {line : Asm} {first rest : List Asm} (hget : code[s.pc]? = some i)
  (h : Along ρ code s t)

include hget h

lemma steps_to (hcode : codeOf ρ i = first ++ line :: rest)
    (hex : Execs (code.flatMap (codeOf ρ)) first t t') :
    Steps (step (code.flatMap (codeOf ρ))) first.length t t' ∧
      step (code.flatMap (codeOf ρ)) t' = perform (code.flatMap (codeOf ρ)) line t' := by
  have hpd := placed_codeOf (ρ := ρ) hget
  rw [hcode, ← h.pc] at hpd
  have hnx := hpd.right
  rw [← hex.pc_eq] at hnx
  exact ⟨hex.steps hpd.left, step_of_placed hnx⟩

lemma answers_next {s' : Tac.State (BitVec 32)} (hseg : Segment code)
    (hi : ∀ c, i ≠ markInstr "program_end" c) (hne : codeOf ρ i ≠ [])
    (hex : Execs (code.flatMap (codeOf ρ)) (codeOf ρ i) t t') (hpc : s'.pc = s.pc + 1)
    (hout : s'.out = t'.out) (hsho : Shows ρ (namesOf code) s'.store t'.regs) :
    Answers ρ code t (.ok s') := by
  have hpd := placed_codeOf (ρ := ρ) hget
  rw [← h.pc] at hpd
  obtain ⟨n, hn⟩ := Nat.exists_eq_succ_of_ne_zero fun hlen => hne (length_eq_zero_iff.1 hlen)
  have hsts := hex.steps hpd
  rw [hn] at hsts
  refine ⟨n, t', hsts, hout, ?_, ?_, hsho⟩
  · rw [hpc]
    exact hseg.lt_length hget hi
  · rw [hex.pc_eq, hpc, offset_succ hget, h.pc]

variable {l c : String} {v : BitVec 32}

lemma answers_jump (hseg : Segment code) (hl : jumpOf? i = some l)
    (hcode : codeOf ρ i = first ++ line :: rest)
    (hex : Execs (code.flatMap (codeOf ρ)) first t t') (hout : t'.out = t.out)
    (hsho : Shows ρ (namesOf code) s.store t'.regs)
    (hline : perform (code.flatMap (codeOf ρ)) line t' = jumpTo (code.flatMap (codeOf ρ)) l t') :
    Answers ρ code t (Tac.jumpTo code l s) := by
  have hmem : i ∈ code := mem_of_getElem? hget
  obtain ⟨m, hlt, htac, hmips⟩ :=
    exists_target (ρ := ρ) (fun _ => hseg.listed) (hseg.targets i hmem l hl)
  obtain ⟨hsts, hla⟩ := steps_to hget h hcode hex
  rw [hline, jumpTo, hmips] at hla
  rw [Tac.jumpTo, htac]
  exact ⟨first.length, { t' with pc := offset ρ code m }, hsts.trans (.one hla),
    h.out.trans hout.symm, hlt, rfl, hsho⟩

lemma answers_halt {why : Tac.Halt} (hwhy : why ≠ .stuck)
    (hcode : codeOf ρ i = first ++ line :: rest)
    (hex : Execs (code.flatMap (codeOf ρ)) first t t') (hout : t'.out = t.out)
    (hline : perform (code.flatMap (codeOf ρ)) line t' = .error (reason why)) :
    Answers ρ code t (.error why) := by
  obtain ⟨hsts, hla⟩ := steps_to hget h hcode hex
  exact ⟨hwhy, t', ⟨⟨_, hsts⟩, hla.trans hline⟩, hout⟩

lemma answers_label (hseg : Segment code) (hi : Tac.labelOf? i = some l)
    (hl : l ≠ "program_end") (hcode : codeOf ρ i = labelCode l) :
    Answers ρ code t (.ok s.next) := by
  rw [labelCode, if_neg hl] at hcode
  have hend : ∀ c, i ≠ markInstr "program_end" c := by
    rintro c rfl
    exact hl (Option.some.inj hi).symm
  have hex : Execs (code.flatMap (codeOf ρ)) (codeOf ρ i) t t.next := by
    rw [hcode]
    exact .cons rfl rfl (.nil _)
  exact answers_next hget h hseg hend (by simp [hcode]) hex rfl h.out h.shows

lemma answers_finish (hi : i = markInstr "program_end" c) :
    Answers ρ code t (.error .finished) := by
  subst hi
  let t1 := (t.next.next.next.write .result 10)
  have hex : Execs (code.flatMap (codeOf ρ))
      [.label "program_end", .blank, .heading "Exit program", .li .result (toString 10)] t t1 :=
    .cons rfl rfl (.cons rfl rfl (.cons rfl rfl (.write rfl)))
  have hcode : codeOf ρ (markInstr "program_end" c) =
      [.label "program_end", .blank, .heading "Exit program", .li .result (toString 10)] ++
        .syscall :: [] :=
    rfl
  exact answers_halt hget h nofun hcode hex rfl rfl

variable (hseg : Segment code) (hft : Fits ρ (namesOf code)) {a b x : String}

include hseg hft

/-- Lines that end with the word `v` in the register of `x` do what writing `v` to `x` does. -/
lemma answers_write {t1 : State} (hop : i.op ≠ .label)
    (hx : x ∈ namesOf code) (hcode : codeOf ρ i = first ++ line :: rest)
    (hf : Execs (code.flatMap (codeOf ρ)) first t t1) (hout : t1.out = t.out)
    (hsho : Shows ρ (namesOf code) s.store t1.regs)
    (hrest : ∃ t', Execs (code.flatMap (codeOf ρ)) (line :: rest) t1 t' ∧
      t'.regs = Function.update t1.regs (ρ x) v ∧ t'.out = t1.out) :
    Answers ρ code t (.ok (s.write x v)) := by
  obtain ⟨t', hex, hregs, hout'⟩ := hrest
  have hall : Execs (code.flatMap (codeOf ρ)) (codeOf ρ i) t t' := by
    rw [hcode]
    exact hf.append hex
  refine answers_next hget h hseg (ne_markInstr hop) (by simp [hcode]) hall rfl ?_ ?_
  · exact h.out.trans (hout'.trans hout).symm
  · rw [hregs]
    exact hsho.update hft hx

lemma answers_mov (hi : i = ⟨.mov, .text a, .none, .text x, c⟩) (ha : IsOperand a)
    (hx : IsName x) : Answers ρ code t (.ok (s.write x (Tac.read .words s.store a))) := by
  subst hi
  have hmem : ∀ y ∈ variableOf (.text a) ++ ([] ++ variableOf (.text x)), y ∈ namesOf code :=
    fun y hy => Segment.mem_names (mem_of_getElem? hget) hy
  have hx' : x ∈ namesOf code := hmem x (by simp [variableOf, hx.isLiteral])
  rcases ha with ha | ha
  · obtain ⟨-, -, hreg⟩ :=
      reg_of_isName hft ha (fun y hy => hmem y (by simp [hy])) h.shows
    have hcode : codeOf ρ ⟨.mov, .text a, .none, .text x, c⟩ = [] ++ [.move (ρ x) (ρ a)] :=
      if_neg (by rw [ha.isLiteral]; decide)
    rw [← hreg]
    exact answers_write hget h hseg hft (by simp) hx' hcode (.nil t) rfl h.shows
      ⟨_, .write rfl, rfl, rfl⟩
  · obtain ⟨n, hn, himm⟩ := literal?_of_isNumber ha
    have hcode : codeOf ρ ⟨.mov, .text a, .none, .text x, c⟩ = [] ++ [.li (ρ x) a] :=
      if_pos ha.isLiteral
    rw [Tac.read_of_literal hn]
    refine answers_write hget h hseg hft (by simp) hx' hcode (.nil t) rfl h.shows
      ⟨_, .write ?_, rfl, rfl⟩
    change writeAny t (ρ x) (immediate? a) = _
    rw [himm]
    rfl

lemma answers_print (hi : i = ⟨.print, .text a, .none, .none, c⟩)
    (ha : IsOperand a) : Answers ρ code t (.ok (s.print (Tac.read .words s.store a))) := by
  subst hi
  have hmem : ∀ y ∈ variableOf (.text a) ++ ([] ++ []), y ∈ namesOf code :=
    fun y hy => Segment.mem_names (mem_of_getElem? hget) hy
  obtain ⟨t1, hex, hout, hsho, -, hreg⟩ :=
    exec_load hft (code.flatMap (codeOf ρ)) ha (fun y hy => hmem y (by simp [hy])) h.shows
  -- The word goes to the argument register, and the number of the call to another one.
  have hca : Execs (code.flatMap (codeOf ρ)) (.move (.arg 0) (placeOf ρ a) :: Lower.systemCall 1) t1
      (((t1.write (.arg 0) (t1.reg (placeOf ρ a))).write .result 1).print
        (t1.reg (placeOf ρ a))) :=
    .cons rfl rfl (.cons rfl rfl (.cons rfl rfl (.nil _)))
  refine answers_next hget h hseg (ne_markInstr nofun) ?_ (hex.append hca) rfl ?_ ?_
  · simp [codeOf]
  · change s.out ++ [_] = t1.out ++ [t1.reg (placeOf ρ a)]
    rw [h.out, hout, hreg]
  · exact (hsho.scratch hft (by decide)).scratch hft (by decide)

lemma answers_unary (hi : variablesOf i = variableOf (.text a) ++ ([] ++ variableOf (.text x)))
    (hop : i.op ≠ .label) (hx : IsName x) (ha : IsOperand a)
    (hcode : codeOf ρ i = loadCode a ++ [line])
    (hline : ∀ t1 : State, t1.reg (placeOf ρ a) = Tac.read .words s.store a →
      perform (code.flatMap (codeOf ρ)) line t1 = .ok (t1.write (ρ x) v)) :
    Answers ρ code t (.ok (s.write x v)) := by
  have hmem : ∀ y ∈ variablesOf i, y ∈ namesOf code :=
    fun y => Segment.mem_names (mem_of_getElem? hget)
  rw [hi] at hmem
  obtain ⟨t1, hex, hout, hsho, -, hreg⟩ :=
    exec_load hft (code.flatMap (codeOf ρ)) ha (fun y hy => hmem y (by simp [hy])) h.shows
  have hx := hmem x (by simp [variableOf, hx.isLiteral])
  exact answers_write hget h hseg hft hop hx hcode hex hout hsho
    ⟨_, .write (hline t1 hreg), rfl, rfl⟩

lemma answers_binary (op : Binary)
    (hi : i = ⟨op.op, .text a, .text b, .text x, c⟩) (ha : IsOperand a) (hb : IsOperand b)
    (hx : IsName x) (hone : IsName a ∨ IsName b) :
    Answers ρ code t (Tac.perform .words code i s) := by
  subst hi
  have hmem : ∀ y ∈ variableOf (.text a) ++ (variableOf (.text b) ++ variableOf (.text x)),
      y ∈ namesOf code := by
    intro y hy
    refine Segment.mem_names (mem_of_getElem? hget) ?_
    cases op <;> exact hy
  have hx' : x ∈ namesOf code := hmem x (by simp [variableOf, hx.isLiteral])
  have hop : op.op ≠ .label := by cases op <;> nofun
  obtain ⟨t1, hex, hout, hsho, hreg1, hreg2⟩ :=
    exec_loads hft (code.flatMap (codeOf ρ)) ha hb hone
      (fun y hy => hmem y (by simp [hy])) (fun y hy => hmem y (by simp [hy])) h.shows
  have hcode := codeOf_binary ρ op a b x c
  rw [← append_assoc] at hcode
  rw [Tac.perform_binary, ← hreg1, ← hreg2]
  cases hv : Arith.words.result? op (t1.reg (placeOf ρ a)) (t1.reg (placeOf ρ b)) with
  | some v =>
    have hrun := exec_operation (code.flatMap (codeOf ρ)) op
      (hft.ne hx' (r := .zero) (by decide)) hv
    obtain ⟨line, rest, hlines⟩ : ∃ line rest,
        binaryCode op (ρ x) (placeOf ρ a) (placeOf ρ b) = line :: rest := by
      cases op with
      | compare r => cases r <;> exact ⟨_, _, rfl⟩
      | _ => exact ⟨_, _, rfl⟩
    rw [hlines] at hcode hrun
    exact answers_write hget h hseg hft hop hx' hcode hex hout hsho hrun
  | none =>
    obtain ⟨line, rest, hlines, hstops⟩ :=
      stops_of_result_none (code.flatMap (codeOf ρ)) (ρ x) hv
    rw [hlines] at hcode
    have hhalt : Answers ρ code t (.error .zeroDivision) :=
      answers_halt hget h nofun hcode hex hout hstops
    exact hhalt

lemma answers_branch {jumps : Prop} [Decidable jumps] (hop : i.op ≠ .label)
    (hl : jumpOf? i = some l) (ha : IsOperand a)
    (hmem : ∀ y ∈ variableOf (.text a), y ∈ namesOf code)
    (hcode : codeOf ρ i = loadCode a ++ [line])
    (hline : ∀ t1 : State, t1.reg (placeOf ρ a) = Tac.read .words s.store a →
      perform (code.flatMap (codeOf ρ)) line t1 =
        if jumps then jumpTo (code.flatMap (codeOf ρ)) l t1 else .ok t1.next) :
    Answers ρ code t (if jumps then Tac.jumpTo code l s else .ok s.next) := by
  obtain ⟨t1, hex, hout, hsho, -, hreg⟩ :=
    exec_load hft (code.flatMap (codeOf ρ)) ha hmem h.shows
  have hla := hline t1 hreg
  by_cases hjumps : jumps
  · rw [if_pos hjumps] at hla ⊢
    exact answers_jump hget h hseg hl hcode hex hout hsho hla
  · rw [if_neg hjumps] at hla ⊢
    have hall : Execs (code.flatMap (codeOf ρ)) (codeOf ρ i) t t1.next := by
      rw [hcode]
      exact hex.append (.cons hla rfl (.nil _))
    exact answers_next hget h hseg (ne_markInstr hop) (by simp [hcode]) hall rfl
      (h.out.trans hout.symm) hsho

lemma answers_step : Answers ρ code t (Tac.step .words code s) := by
  have hmem : i ∈ code := mem_of_getElem? hget
  have hnms : ∀ y ∈ variablesOf i, y ∈ namesOf code := fun y => Segment.mem_names hmem
  have hsp : Tac.step .words code s = Tac.perform .words code i s := by rw [Tac.step, hget]
  rw [hsp]
  cases hseg.listed hmem with
  | start c => exact answers_label hget h hseg rfl (by decide) rfl
  | finish c => exact answers_finish hget h rfl
  | plain hpl =>
    cases hpl with
    | @label l c hl =>
      have hend : l ≠ "program_end" := ne_of_isLocalLabel hl (by decide)
      have hnx : Tac.perform .words code ⟨.label, .text l, .none, .none, c⟩ s = .ok s.next :=
        if_neg hend
      rw [hnx]
      exact answers_label hget h hseg rfl hend rfl
    | @jump l c =>
      have hcode : codeOf ρ ⟨.jump, .text l, .none, .none, c⟩ = [] ++ [.j l] := rfl
      exact answers_jump hget h hseg rfl hcode (.nil t) rfl h.shows rfl
    | @ifz a l c ha =>
      refine answers_branch (l := l) hget h hseg hft (by simp) rfl ha hnms rfl ?_
      intro t1 hreg
      rw [← hreg]
      rfl
    | @ifnz a l c ha =>
      have htur : Tac.perform .words code ⟨.ifnz, .text a, .none, .text l, c⟩ s =
          if ¬ Tac.read .words s.store a = 0 then Tac.jumpTo code l s else .ok s.next :=
        (ite_not ..).symm
      rw [htur]
      refine answers_branch (l := l) hget h hseg hft (by simp) rfl ha hnms rfl ?_
      intro t1 hreg
      rw [← hreg, ite_not]
      rfl
    | mov ha hx => exact answers_mov hget h hseg hft rfl ha hx
    | print ha => exact answers_print hget h hseg hft rfl ha
    | @neg a x c ha hx =>
      refine answers_unary hget h hseg hft rfl (by simp) hx ha rfl ?_
      intro t1 hreg
      change Except.ok (t1.write (ρ x) (0#32 - t1.reg (placeOf ρ a))) = _
      rw [hreg, BitVec.zero_sub]
      rfl
    | @not a x c ha hx =>
      refine answers_unary hget h hseg hft rfl (by simp) hx ha rfl ?_
      intro t1 hreg
      change Except.ok (t1.write (ρ x) (bit ((t1.reg (placeOf ρ a)).ult (.ofNat 32 1)))) = _
      rw [hreg, ult_one, bit_eq_flag]
      rfl
    | @binary op a b x c ha hb hx hone =>
      exact answers_binary hget h hseg hft op rfl ha hb hx hone

end Step

variable {code : List Instr} {ρ : String → Reg}

lemma simulates (hseg : Segment code) (hft : Fits ρ (namesOf code)) :
    Simulates (Tac.step .words code) (step (code.flatMap (codeOf ρ))) Tac.State.out State.out reason
      (Along ρ code) where
  out h := h.out
  step := by
    intro s s' t h hs
    have hans := answers_step (getElem?_eq_getElem h.bound) h hseg hft
    rw [hs] at hans
    exact hans
  halt := by
    intro s t why h hs
    have hans := answers_step (getElem?_eq_getElem h.bound) h hseg hft
    rw [hs] at hans
    exact hans.2

lemma not_stuck (hseg : Segment code)
    (hft : Fits ρ (namesOf code)) {s : Tac.State (BitVec 32)} {t u : State}
    (h : Along ρ code s t) : ¬ Halts (step (code.flatMap (codeOf ρ))) t .stuck u := by
  intro hu
  have hsim := simulates hseg hft
  obtain ⟨why, s', hs'⟩ := hsim.halts_of_halts h hu
  -- The code halts for the same reason, and being stuck is none of its reasons.
  obtain ⟨t', ht', -⟩ := hsim.halts h hs'
  have hwhy : reason why = .stuck := (ht'.unique hu).1
  obtain ⟨n, hn⟩ := hs'.1
  obtain ⟨m, t1, -, -, halong⟩ := hsim.steps h hn
  have hans := answers_step (getElem?_eq_getElem halong.bound) halong hseg hft
  rw [hs'.2] at hans
  exact hans.1 (reason_injective hwhy)

lemma Segment.along_start {store : String → BitVec 32}
    {regs : Reg → BitVec 32} (hseg : Segment code) (h : Shows ρ (namesOf code) store regs) :
    Along ρ code (.start code store) (.start regs) := by
  obtain ⟨body, c, c', hcode, -⟩ := hseg.exists_body
  have hz : Tac.target? code "program_start" = some 0 := by
    rw [hcode, Tac.target?, findIdx?_cons]
    rfl
  have hpc : (Tac.State.start code store).pc = 0 := by rw [Tac.State.start, hz]; rfl
  refine ⟨rfl, ?_, ?_, h⟩
  · rw [hpc, hcode]
    exact Nat.succ_pos _
  · rw [hpc]
    rfl

/-- Each register holds the word of its variable. -/
def Registers.Holds (rs : Registers) (store : String → BitVec 32) (regs : Reg → BitVec 32) : Prop :=
  ∀ x r, rs.ofVariable.get? (some x) = some r → regs r = store x

/-- Lines that do what code does on words that wrap around. Each variable has a register of its own.
    If these hold the words of the variables at first, the lines print what the code prints, and
    they stop if and when the code does: with the call that ends the run at the end of the program,
    at a division by zero for a division by zero, and for no other reason. -/
structure Implements (code : List Instr) (rs : Registers) (asm : List Asm) : Prop where
  placed : ∀ x ∈ namesOf code, ∃ r ∈ Reg.forVariables, rs.ofVariable.get? (some x) = some r
  apart : ∀ x y r, rs.ofVariable.get? (some x) = some r → rs.ofVariable.get? (some y) = some r →
    x = y
  prints {store : String → BitVec 32} {regs : Reg → BitVec 32} (h : rs.Holds store regs)
      (w : List (BitVec 32)) :
    Prints (step asm) State.out (.start regs) w ↔
      Prints (Tac.step .words code) Tac.State.out (.start code store) w
  finishes {store : String → BitVec 32} {regs : Reg → BitVec 32} (h : rs.Holds store regs)
      (w : List (BitVec 32)) :
    (∃ t, Halts (step asm) (.start regs) .exit t ∧ t.out = w) ↔
      ∃ s, Halts (Tac.step .words code) (.start code store) .finished s ∧ s.out = w
  faults {store : String → BitVec 32} {regs : Reg → BitVec 32} (h : rs.Holds store regs)
      (w : List (BitVec 32)) :
    (∃ t, Halts (step asm) (.start regs) .zeroDivision t ∧ t.out = w) ↔
      ∃ s, Halts (Tac.step .words code) (.start code store) .zeroDivision s ∧ s.out = w
  never_stuck {store : String → BitVec 32} {regs : Reg → BitVec 32} (h : rs.Holds store regs)
      (t : State) : ¬ Halts (step asm) (.start regs) .stuck t

/-- The lines for a choice with a register for each variable do what the code does. -/
lemma Registers.Within.implements {rs : Registers} (hseg : Segment code)
    (hrs : rs.Within (namesOf code))
    (hall : ∀ x ∈ namesOf code, (rs.ofVariable.get? (some x)).isSome = true) :
    Implements code rs (code.flatMap (codeOf rs.choice)) := by
  have hft := hrs.fits hall
  have hsim := simulates hseg hft
  have halong : ∀ {store regs}, rs.Holds store regs →
      Along rs.choice code (.start code store) (.start regs) := by
    intro store regs hregs
    refine hseg.along_start ?_
    intro x hx
    obtain ⟨r, hr⟩ := Option.isSome_iff_exists.1 (hall x hx)
    rw [rs.agrees_choice x r hr]
    exact hregs x r hr
  constructor
  case placed =>
    intro x hx
    obtain ⟨r, hr⟩ := Option.isSome_iff_exists.1 (hall x hx)
    exact ⟨r, (hrs.mem hr).2, hr⟩
  case apart => exact fun x y r => hrs.injective
  case prints => exact fun h w => (hsim.prints_iff (keepsOutput _) (halong h) w).symm
  case finishes => exact fun h w => (hsim.halts_iff reason_injective (halong h) .finished w).symm
  case faults => exact fun h w => (hsim.halts_iff reason_injective (halong h) .zeroDivision w).symm
  case never_stuck => exact fun h t => not_stuck hseg hft (halong h)

/-- Lowering the code of a program on integers keeps what it does. Whatever was lowered before,
    there is no fault, and the lines that are added do what the code does. -/
theorem lowered_segment_implements {code : List Instr} (hseg : Segment code) (before : Lowering) :
    ∃ (asm : List Asm) (rs : Registers), (lower code).run.run before = (.ok (), { before with
        asm := before.asm ++ asm, registers := rs, pending := [], stringVars := [] }) ∧
      Implements code rs asm := by
  obtain ⟨rs, hrs, hall, hrun⟩ := exists_lower hseg before
  exact ⟨_, rs, hrun, hrs.implements hseg hall⟩

/-- A loop that prints the remainders of a number by all smaller ones. -/
def remainders : List Instr :=
  [.of .label (.text "program_start") .none .none,
    .of .mov (.text "-7") .none (.text "n"),
    .of .mov (.text "3") .none (.text "k"),
    .of .label (.text "L0") .none .none,
    .of (.cmp .gt) (.text "k") (.text "0") (.text "t1"),
    .of .ifz (.text "t1") .none (.text "L1"),
    .of .mod (.text "n") (.text "k") (.text "t1"),
    .of .print (.text "t1") .none .none,
    .of .sub (.text "k") (.text "1") (.text "k"),
    .of .jump (.text "L0") .none .none,
    .of .label (.text "L1") .none .none,
    .of .label (.text "program_end") .none .none]

lemma segment_remainders : Segment remainders where
  exists_body := by
    refine ⟨(remainders.drop 1).take 10, "", "", rfl, ?_⟩
    have hn : IsName "n" := by decide
    have hk : IsName "k" := by decide
    have ht : IsName "t1" := by decide
    intro i hi
    simp only [remainders, drop_succ_cons, drop_zero, take_succ_cons, take_zero,
      mem_cons, not_mem_nil, or_false] at hi
    rcases hi with rfl | rfl | rfl | rfl | rfl | rfl | rfl | rfl | rfl | rfl
    · exact .mov (.inr (by decide)) hn
    · exact .mov (.inr (by decide)) hk
    · exact .label (by decide)
    · exact .binary (.compare .gt) (.inl hk) (.inr (by decide)) ht (.inl hk)
    · exact .ifz (.inl ht)
    · exact .binary .mod (.inl hn) (.inl hk) ht (.inl hn)
    · exact .print (.inl ht)
    · exact .binary .sub (.inl hk) (.inr (by decide)) hk (.inl hk)
    · exact .jump
    · exact .label (by decide)
  targets := by decide
  few := by decide

theorem lowered_remainders_implements : Segment remainders ∧ ∃ (asm : List Asm) (rs : Registers),
      (lower remainders).run.run .start = (.ok (), { Lowering.start with
        asm := asm, registers := rs }) ∧ Implements remainders rs asm := by
  obtain ⟨asm, rs, hrun, himp⟩ := lowered_segment_implements segment_remainders .start
  exact ⟨segment_remainders, asm, rs, hrun, himp⟩

end Compiscript.Mips
