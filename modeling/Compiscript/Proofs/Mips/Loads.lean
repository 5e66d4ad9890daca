import Compiscript.Proofs.Mips.Operations
import Compiscript.Proofs.Mips.Waiting

/-!
# What an Operation Works On

The operands of an operation are brought into registers one after the other. A variable has a
register of its own, but all numbers are loaded into the same one, so of two numbers only the
second is left when the operation comes to work on them.

## Theorems

* `Mips.operation_on_last_number`: What an operation works on, with two numbers and with fewer.
-/

namespace Compiscript.Mips

open Lower

/-- Variables are only in registers for variables. -/
def Registers.InRange (rs : Registers) : Prop :=
  ∀ x r, rs.ofVariable.get? x = some r → r ∈ Reg.forVariables

namespace Registers.InRange

variable {rs : Registers}

lemma assign (h : rs.InRange) (x : Option String) {r : Reg} (hr : r ∈ Reg.forVariables) :
    (rs.assign x r).InRange := by
  intro y q hy
  change (rs.ofVariable.set x r).get? y = some q at hy
  by_cases hxy : x = y
  · rw [hxy, Table.get?_set_self] at hy
    exact Option.some.inj hy ▸ hr
  · rw [Table.get?_set_of_ne _ hxy] at hy
    exact h y q hy

lemma take (h : rs.InRange) (x : Option String) :
    (rs.take x).1 ∈ Reg.forVariables ∧ (rs.take x).2.InRange := by
  unfold Registers.take
  split
  · rename_i r hr
    exact ⟨h x r hr, h⟩
  · split
    · rename_i r hr
      have hmem := List.mem_of_find?_eq_some hr
      exact ⟨hmem, h.assign x hmem⟩
    · have hevict : (rs.evict victim).InRange := by
        unfold evict
        split
        · intro y r hy
          rw [Table.get?_erase] at hy
          split at hy
          · cases hy
          · exact h y r hy
        · exact h
      have hvic : victim ∈ Reg.forVariables := by decide
      exact ⟨hvic, hevict.assign x hvic⟩

end Registers.InRange

lemma Made.inRange {α : Type} {m : Lower α} {w : Wanted} (h : Made .all w m) {s : Lowering}
    (hs : s.registers.InRange) : (m.run s).2.registers.InRange := by
  induction h generalizing s with
  | both _ _ ihm ihk => exact ihk _ (ihm hs)
  | less _ ih => exact ih hs
  | registerOf => exact (hs.take _).2
  | waiting _ _ _ ih => exact ih s (fun _ _ _ => trivial) hs
  | forget => exact fun _ _ h => nomatch h
  | _ => exact hs

/-- The word that an operand stands for, to lowering in a state and to a machine in one: a number
    that fits into a word, or a variable that is in a register. -/
inductive Holds (s : Lowering) (t : State) : String → BitVec 32 → Prop where
  | number {a : String} {v : BitVec 32} (h : immediate? a = some v) : Holds s t a v
  | inRegister {a : String} {r : Reg} (ha : IsVariable (some a))
      (h : s.registers.ofVariable.get? (some a) = some r) : Holds s t a (t.reg r)

section Holds

variable {s : Lowering} {t : State} {a b : String} {v w : BitVec 32} (asm : List Asm)

lemma Holds.isString (h : Holds s t a v) : isString (some a) = holdsString (some a) := by
  have hquo : isStringLiteral (some a) = false := by
    cases h with
    | number h => exact IsNumber.isQuoted (by rw [IsNumber, h]; rfl)
    | inRegister ha _ => exact ha.noString
  unfold Lower.isString
  rw [hquo]
  simp

/-- An operand is brought into a register, without a line for a variable and into the scratch
    register for a number. -/
lemma Holds.exists_load (h : Holds s t a v) (hs : s.registers.InRange) :
    ∃ r, (r = .scratch ↔ IsNumber a) ∧
      (∀ s' : Lowering, s'.registers = s.registers → (ensure (some a)).run s' =
        (r, { s' with asm := s'.asm ++ loadCode a })) ∧
      ∀ t1 : State, (∀ q, q ≠ .scratch → t1.reg q = t.reg q) →
        ∃ t2, Execs asm (loadCode a) t1 t2 ∧ (∀ q, q ≠ .scratch → t2.reg q = t1.reg q) ∧
          t2.reg r = v ∧ (¬ IsNumber a → t2 = t1) := by
  cases h with
  | number h =>
    have hnum : IsNumber a := by rw [IsNumber, h]; rfl
    rw [loadCode, if_pos hnum.isLiteral]
    refine ⟨.scratch, iff_of_true rfl hnum, fun s' _ => ?_, fun t1 _ => ?_⟩
    · rw [ensure_of_isNumber hnum]
      rfl
    · refine ⟨t1.write .scratch v, .write ?_, fun q hq => State.reg_write_of_ne hq,
        State.reg_write_self (by decide), fun hno => absurd hnum hno⟩
      change writeAny t1 .scratch (immediate? a) = _
      rw [h]
      rfl
  | @inRegister r ha h =>
    have hnum : ¬ IsNumber a := fun hnum =>
      Bool.false_ne_true (ha.noLiteral.symm.trans hnum.isLiteral)
    have hr : r ≠ .scratch := fun heq => absurd (hs _ r h) (heq ▸ by decide)
    rw [loadCode, if_neg (Bool.eq_false_iff.1 ha.noLiteral)]
    refine ⟨r, iff_of_false hr hnum, fun s' hs' => ?_, fun t1 hsm => ?_⟩
    · rw [ensure_of_isVariable ha, List.append_nil]
      change ((s'.registers.take (some a)).1,
        { s' with registers := (s'.registers.take (some a)).2 }) = _
      rw [Registers.take, hs', h, ← hs']
    · exact ⟨t1, .nil t1, fun _ _ => rfl, hsm r hr, fun _ => rfl⟩

lemma Holds.exists_loads (ha : Holds s t a v) (hb : Holds s t b w) (hs : s.registers.InRange) :
    ∃ r1 r2, (∀ (code : Reg → Reg → Reg → List Asm) (x : String),
        (binary code (some a) (some b) (some x)).run s = ((), { s with
            registers := (s.registers.take (some x)).2
            asm := s.asm ++ loadCode a ++ loadCode b ++
              code (s.registers.take (some x)).1 r1 r2 })) ∧
      ∃ t', Execs asm (loadCode a ++ loadCode b) t t' ∧
        t'.reg r1 = (if IsNumber a ∧ IsNumber b then w else v) ∧ t'.reg r2 = w := by
  obtain ⟨r1, hscratch1, hensure1, hload1⟩ := ha.exists_load asm hs
  obtain ⟨r2, hscratch2, hensure2, hload2⟩ := hb.exists_load asm hs
  obtain ⟨t1, hexec1, hkept1, hreg1, -⟩ := hload1 t fun _ _ => rfl
  obtain ⟨t2, hexec2, hkept2, hreg2, hnn⟩ := hload2 t1 hkept1
  refine ⟨r1, r2, fun code x => ?_, t2, hexec1.append hexec2, ?_, hreg2⟩
  · change (do
      let r2 ← ensure (some b)
      let rd ← registerOf (some x)
      emitAll (code rd ((ensure (some a)).run s).1 r2)).run
        ((ensure (some a)).run s).2 = _
    rw [hensure1 s rfl]
    change (do
      let rd ← registerOf (some x)
      emitAll (code rd r1 ((ensure (some b)).run
        { s with asm := s.asm ++ loadCode a }).1)).run
        ((ensure (some b)).run { s with asm := s.asm ++ loadCode a }).2 = _
    rw [hensure2 { s with asm := s.asm ++ loadCode a } rfl]
    rfl
  · by_cases hna : IsNumber a
    · by_cases hnb : IsNumber b
      · rw [if_pos ⟨hna, hnb⟩, hscratch1.2 hna, ← hscratch2.2 hnb, hreg2]
      · rw [if_neg fun h => hnb h.2, hnn hnb, hreg1]
    · rw [if_neg fun h => hna h.1, hkept2 r1 (fun h => hna (hscratch1.1 h)), hreg1]

lemma run_operation (op : Binary) {x : String} (c : String)
    (ha : Holds s t a v) (hb : Holds s t b w)
    (hnumbers : op = .add → some a ∉ s.stringVars ∧ some b ∉ s.stringVars) {s' : Lowering}
    (h : (binary (binaryCode op) (some a) (some b) (some x)).run s = ((), s')) :
    (instruction ⟨op.op, .text a, .text b, .text x, c⟩).run.run s = (.ok (), s') := by
  have hlift : ∀ {m : Lower Unit}, m.run s = ((), s') →
      (liftM m : ExceptT LowerFault Lower Unit).run.run s = (.ok (), s') := by
    intro m hm
    rw [run_lift, hm]
  cases op with
  | add =>
    obtain ⟨hf, hsnd⟩ := hnumbers rfl
    refine hlift (m := add (some a) (some b) (some x)) ?_
    unfold add
    rw [ha.isString, hb.isString]
    change (if s.stringVars.contains (some a) || s.stringVars.contains (some b) then _
      else binary _ (some a) (some b) (some x) : Lower Unit).run s = _
    rw [if_neg (by simp [hf, hsnd])]
    exact h
  | sub => exact hlift h
  | mul => exact hlift h
  | div => exact hlift h
  | mod => exact hlift h
  | compare r => exact hlift h

end Holds

/-- An operation works on its operands, numbers that fit into a word or variables in registers:
    its result is that of the two words, except that of two numbers the second stands for both.
    Without a result, there is a division by zero. -/
theorem operation_on_last_number (code : List Instr) (op : Binary) {a b : String} (x c : String)
    {s : Lowering} (hrun : (lower code).run.run .start = (.ok (), s)) (asm : List Asm) {t : State}
    {v w : BitVec 32} (ha : Holds s t a v) (hb : Holds s t b w)
    (hnumbers : op = .add → some a ∉ s.stringVars ∧ some b ∉ s.stringVars) :
    ∃ rd lines s', (Lower.instruction ⟨op.op, .text a, .text b, .text x, c⟩).run.run s =
        (.ok (), s') ∧
      s'.asm = s.asm ++ lines ∧ s'.registers.ofVariable.get? (some x) = some rd ∧
      match Arith.words.result? op (if IsNumber a ∧ IsNumber b then w else v) w with
      | some z => ∃ t', Execs asm lines t t' ∧ t'.reg rd = z
      | none => ∃ before line after t', lines = before ++ line :: after ∧
          Execs asm before t t' ∧ perform asm line t' = .error .zeroDivision := by
  have hs : s.registers.InRange := by
    have h := (made_all code).inRange (s := .start) (fun _ _ h => nomatch h)
    rw [hrun] at h
    exact h
  obtain ⟨r1, r2, hlower, t₂, hex, hreg₁, hreg₂⟩ := ha.exists_loads asm hb hs
  have hrd : (s.registers.take (some x)).1 ≠ .zero := fun h =>
    absurd (hs.take (some x)).1 (h ▸ by decide)
  refine ⟨(s.registers.take (some x)).1,
    loadCode a ++ loadCode b ++ binaryCode op (s.registers.take (some x)).1 r1 r2, _,
    run_operation op c ha hb hnumbers (hlower _ x), ?_, ?_, ?_⟩
  · simp only [List.append_assoc]
  · exact s.registers.get?_take (some x)
  · rw [← hreg₁]
    split
    · rename_i z hz
      rw [← hreg₂] at hz
      obtain ⟨t', hexec', hregs, -⟩ := exec_operation asm op hrd hz
      refine ⟨t', hex.append hexec', ?_⟩
      rw [State.reg, if_neg hrd, hregs, Function.update_self]
    · rename_i hz
      rw [← hreg₂] at hz
      obtain ⟨line, rest, hline, hhalt⟩ :=
        stops_of_result_none asm (s.registers.take (some x)).1 hz
      exact ⟨loadCode a ++ loadCode b, line, rest, t₂, by rw [hline], hex, hhalt⟩

/-- The difference of any two numbers is zero. -/
theorem operation_on_last_number_difference :
    ∃ rd lines s', (Lower.instruction (.of .sub (.text "1") (.text "2")
        (.text "x"))).run.run .start = (.ok (), s') ∧
      s'.asm = Lowering.start.asm ++ lines ∧ s'.registers.ofVariable.get? (some "x") = some rd ∧
      ∃ t', Execs [] lines (.start fun _ => 0) t' ∧ t'.reg rd = 0 :=
  operation_on_last_number [] .sub "x" "" rfl [] (v := 1) (w := 2) (.number (by decide))
    (.number (by decide)) (fun h => nomatch h)

end Compiscript.Mips
