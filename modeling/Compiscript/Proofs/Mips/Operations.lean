import Compiscript.Proofs.Mips.Code

/-!
# Operations and their Lines

What the lines of a single operation do to the registers.

Between instructions, a variable and the register it was given hold the same word.
An operation is made of lines that bring its operands into registers, and of lines
that work on them; the latter have the result that the operation has on words that
wrap around, or stop at a division by zero.
-/

namespace Compiscript.Mips

/-! ### Single operations -/

lemma bit_eq_flag (b : Bool) : bit b = Arith.words.flag b := by
  cases b <;> rfl

lemma ult_one (v : BitVec 32) : v.ult (.ofNat 32 1) = decide (v = 0) := by
  rw [BitVec.ult, decide_eq_decide, ← BitVec.toNat_inj]
  simp

lemma zero_ult (v : BitVec 32) : (0 : BitVec 32).ult v = !decide (v = 0) := by
  rw [BitVec.ult, ← decide_not, decide_eq_decide, ← BitVec.toNat_inj]
  simp [Nat.pos_iff_ne_zero]

lemma bit_ult_one (b : Bool) : (bit b).ult (.ofNat 32 1) = !b := by
  cases b <;> rfl

section Operation

variable {asm : List Asm} {t : State} {rd r1 r2 : Reg}

lemma Execs.write {line : Asm} {v : BitVec 32} (h : perform asm line t = .ok (t.write rd v)) :
    Execs asm [line] t (t.write rd v) :=
  .cons h rfl (.nil _)

variable {v : BitVec 32}

lemma exists_rewrite {line line' : Asm} {w : BitVec 32}
    (h : perform asm line t = .ok (t.write rd v))
    (h' : perform asm line' (t.write rd v) = .ok ((t.write rd v).write rd w)) :
    ∃ t', Execs asm [line, line'] t t' ∧ t'.regs = Function.update t.regs rd w ∧ t'.out = t.out :=
  ⟨_, .cons h rfl (.write h'), Function.update_idem _ _ _, rfl⟩

lemma exec_comparison (r : Relation) (hrd : rd ≠ .zero) :
    ∃ t', Execs asm (Lower.compareCode r rd r1 r2) t t' ∧ t'.regs = Function.update t.regs rd
        (Arith.words.flag (Arith.words.holds r (t.reg r1) (t.reg r2))) ∧ t'.out = t.out := by
  have hsf : ∀ v, (t.write rd v).reg rd = v := fun v => State.reg_write_self hrd
  -- All comparisons are made of a test and perhaps a second line that turns it round.
  have hla : ∀ v, perform asm (.sltiu rd rd 1) (t.write rd v) =
      .ok ((t.write rd v).write rd (bit (v.ult (.ofNat 32 1)))) := by
    intro v
    change Except.ok ((t.write rd v).write rd (bit (((t.write rd v).reg rd).ult _))) = _
    rw [hsf]
  cases r with
  | eq =>
    have hv : Arith.words.flag (Arith.words.holds .eq (t.reg r1) (t.reg r2)) =
        bit ((t.reg r1 ^^^ t.reg r2).ult (.ofNat 32 1)) := by
      rw [ult_one, bit_eq_flag]
      simp [Arith.holds]
    rw [hv]
    exact exists_rewrite rfl (hla _)
  | ne =>
    have hv : Arith.words.flag (Arith.words.holds .ne (t.reg r1) (t.reg r2)) =
        bit ((0 : BitVec 32).ult (t.reg r1 ^^^ t.reg r2)) := by
      rw [zero_ult, bit_eq_flag]
      simp [Arith.holds]
    rw [hv]
    refine exists_rewrite rfl ?_
    change Except.ok ((t.write rd _).write rd (bit ((0 : BitVec 32).ult ((t.write rd _).reg rd))))
      = _
    rw [hsf]
  | lt => exact ⟨_, .write rfl, by rw [← bit_eq_flag]; rfl, rfl⟩
  | le =>
    have hv : Arith.words.flag (Arith.words.holds .le (t.reg r1) (t.reg r2)) =
        bit ((bit ((t.reg r2).slt (t.reg r1))).ult (.ofNat 32 1)) := by
      rw [bit_ult_one, bit_eq_flag]
      rfl
    rw [hv]
    exact exists_rewrite rfl (hla _)
  | gt => exact ⟨_, .write rfl, by rw [← bit_eq_flag]; rfl, rfl⟩
  | ge =>
    have hv : Arith.words.flag (Arith.words.holds .ge (t.reg r1) (t.reg r2)) =
        bit ((bit ((t.reg r1).slt (t.reg r2))).ult (.ofNat 32 1)) := by
      rw [bit_ult_one, bit_eq_flag]
      rfl
    rw [hv]
    exact exists_rewrite rfl (hla _)

variable (asm) in
/-- An operation and its lines have the same result. -/
lemma exec_operation (op : Binary) (hrd : rd ≠ .zero)
    (hv : Arith.words.result? op (t.reg r1) (t.reg r2) = some v) :
    ∃ t', Execs asm (binaryCode op rd r1 r2) t t' ∧ t'.regs = Function.update t.regs rd v ∧
      t'.out = t.out := by
  -- A division remembers its results first, and one of them is fetched then.
  have hdivi : ∀ fetch : Asm, t.reg r2 ≠ 0 → perform asm fetch (t.divide (t.reg r1) (t.reg r2)) =
        .ok ((t.divide (t.reg r1) (t.reg r2)).write rd v) →
      ∃ t', Execs asm [.div r1 r2, fetch] t t' ∧ t'.regs = Function.update t.regs rd v ∧
        t'.out = t.out := by
    intro fetch hz hfetch
    exact ⟨_, .cons (if_neg hz) rfl (.write hfetch), rfl, rfl⟩
  cases op with
  | add =>
    cases hv
    exact ⟨_, .write rfl, rfl, rfl⟩
  | sub =>
    cases hv
    exact ⟨_, .write rfl, rfl, rfl⟩
  | mul =>
    cases hv
    exact ⟨_, .cons rfl rfl (.nil _), rfl, rfl⟩
  | div =>
    by_cases hz : t.reg r2 = 0
    · cases (if_pos hz).symm.trans hv
    · cases (if_neg hz).symm.trans hv
      exact hdivi (.mflo rd) hz rfl
  | mod =>
    by_cases hz : t.reg r2 = 0
    · cases (if_pos hz).symm.trans hv
    · cases (if_neg hz).symm.trans hv
      exact hdivi (.mfhi rd) hz rfl
  | compare r =>
    cases hv
    exact exec_comparison r hrd

variable (asm rd) in
/-- An operation without a result is a division by zero, and its lines stop there. -/
lemma stops_of_result_none {op : Binary} (h : Arith.words.result? op (t.reg r1) (t.reg r2) = none) :
    ∃ line rest, binaryCode op rd r1 r2 = line :: rest ∧
      perform asm line t = .error .zeroDivision := by
  have hdiv : t.reg r2 = 0 → perform asm (.div r1 r2) t = .error .zeroDivision :=
    fun hz => if_pos hz
  cases op with
  | div | mod =>
    by_cases hz : t.reg r2 = 0
    · exact ⟨_, _, rfl, hdiv hz⟩
    · cases (if_neg hz).symm.trans h
  | _ => cases h

end Operation

/-! ### Variables and registers -/

/-- A choice with a register of its own for each name. -/
structure Fits (ρ : String → Reg) (names : Finset String) : Prop where
  mem {x : String} (hx : x ∈ names) : ρ x ∈ Reg.forVariables
  inj {x y : String} (hx : x ∈ names) (hy : y ∈ names) (h : ρ x = ρ y) : x = y

lemma Registers.Within.fits {rs : Registers} {names : Finset String} (h : rs.Within names)
    (hall : ∀ x ∈ names, (rs.ofVariable.get? (some x)).isSome = true) : Fits rs.choice names where
  mem := by
    intro x hx
    obtain ⟨r, hr⟩ := Option.isSome_iff_exists.1 (hall x hx)
    rw [rs.agrees_choice x r hr]
    exact (h.mem hr).2
  inj := by
    intro x y hx hy heq
    obtain ⟨r, hr⟩ := Option.isSome_iff_exists.1 (hall x hx)
    obtain ⟨q, hq⟩ := Option.isSome_iff_exists.1 (hall y hy)
    rw [rs.agrees_choice x r hr, rs.agrees_choice y q hq] at heq
    rw [heq] at hr
    exact h.injective hr hq

/-- Each name has its word in its register. -/
def Shows (ρ : String → Reg) (names : Finset String) (store : String → BitVec 32)
    (regs : Reg → BitVec 32) : Prop :=
  ∀ x ∈ names, regs (ρ x) = store x

section Shows

variable {ρ : String → Reg} {names : Finset String} {store : String → BitVec 32}
  {regs : Reg → BitVec 32} {x a b : String} {v : BitVec 32} (hft : Fits ρ names)

include hft

variable {r : Reg}

lemma Fits.ne (hx : x ∈ names) (hr : r ∉ Reg.forVariables) : ρ x ≠ r := by
  intro h
  exact hr (h ▸ hft.mem hx)

lemma Shows.update (h : Shows ρ names store regs) (hx : x ∈ names) :
    Shows ρ names (Function.update store x v) (Function.update regs (ρ x) v) := by
  intro y hy
  by_cases hyx : y = x
  · rw [hyx, Function.update_self, Function.update_self]
  · have hne : ρ y ≠ ρ x := fun heq => hyx (hft.inj hy hx heq)
    rw [Function.update_of_ne hyx, Function.update_of_ne hne, h y hy]

lemma Shows.scratch (h : Shows ρ names store regs) (hr : r ∉ Reg.forVariables) :
    Shows ρ names store (Function.update regs r v) := by
  intro y hy
  rw [Function.update_of_ne (hft.ne hy hr), h y hy]

variable {asm : List Asm} {t : State}

lemma reg_of_isName (ha : IsName a) (hmem : ∀ y ∈ variableOf (.text a), y ∈ names)
    (h : Shows ρ names store t.regs) :
    placeOf ρ a = ρ a ∧ ρ a ≠ .scratch ∧ t.reg (ρ a) = Tac.read .words store a := by
  have hlit : ¬ Lower.isLiteral (some a) = true := by rw [ha.isLiteral]; decide
  have hvar : variableOf (.text a) = [a] := if_neg hlit
  have hin : a ∈ names := hmem a (by rw [hvar]; exact List.mem_singleton_self a)
  refine ⟨if_neg hlit, hft.ne hin (by decide), ?_⟩
  rw [State.reg_of_ne (hft.ne hin (by decide)), h a hin, Tac.read_of_isVariable ha.isVariable]

variable (asm) in
/-- An operand is in its register after its lines. -/
lemma exec_load (ha : IsOperand a) (hmem : ∀ y ∈ variableOf (.text a), y ∈ names)
    (h : Shows ρ names store t.regs) :
    ∃ t', Execs asm (loadCode a) t t' ∧ t'.out = t.out ∧ Shows ρ names store t'.regs ∧
      (∀ r, r ≠ .scratch → t'.reg r = t.reg r) ∧
      t'.reg (placeOf ρ a) = Tac.read .words store a := by
  rcases ha with ha | ha
  · obtain ⟨hpla, -, hreg⟩ := reg_of_isName hft ha hmem h
    rw [loadCode, if_neg (by rw [ha.isLiteral]; decide), hpla]
    exact ⟨t, .nil t, rfl, h, fun _ _ => rfl, hreg⟩
  · obtain ⟨n, hn, himm⟩ := literal?_of_isNumber ha
    rw [loadCode, if_pos ha.isLiteral, placeOf, if_pos ha.isLiteral]
    refine ⟨t.write .scratch (.ofInt 32 n), .write ?_, rfl, h.scratch hft (by decide), ?_, ?_⟩
    · change writeAny t .scratch (immediate? a) = _
      rw [himm]
      rfl
    · exact fun r hr => State.reg_write_of_ne hr
    · rw [State.reg_write_self (by decide), Tac.read_of_literal hn]
      rfl

variable (asm) in
/-- Two operands, at most one of which is a number, are in their registers after their lines. -/
lemma exec_loads (ha : IsOperand a) (hb : IsOperand b) (hone : IsName a ∨ IsName b)
    (hmem : ∀ y ∈ variableOf (.text a), y ∈ names)
    (hmem' : ∀ y ∈ variableOf (.text b), y ∈ names) (h : Shows ρ names store t.regs) :
    ∃ t', Execs asm (loadCode a ++ loadCode b) t t' ∧ t'.out = t.out ∧
      Shows ρ names store t'.regs ∧ t'.reg (placeOf ρ a) = Tac.read .words store a ∧
      t'.reg (placeOf ρ b) = Tac.read .words store b := by
  obtain ⟨t1, hexec1, hout1, hshows1, hkept1, hreg1⟩ := exec_load hft asm ha hmem h
  rcases hone with hone | hone
  · -- The second load leaves the register of a variable alone.
    obtain ⟨hpla, hne, hreg⟩ := reg_of_isName hft hone hmem hshows1
    obtain ⟨t2, hexec2, hout2, hshows2, hkept2, hreg2⟩ :=
      exec_load hft asm hb hmem' hshows1
    refine ⟨t2, hexec1.append hexec2, hout2.trans hout1, hshows2, ?_, hreg2⟩
    rw [hpla, hkept2 _ hne, hreg]
  · -- There is no second load.
    obtain ⟨hpla, -, hreg⟩ := reg_of_isName hft hone hmem' hshows1
    have hload : loadCode b = [] := if_neg (by rw [hone.isLiteral]; decide)
    rw [hload, List.append_nil, hpla]
    exact ⟨t1, hexec1, hout1, hshows1, hreg1, hreg⟩

end Shows

end Compiscript.Mips
