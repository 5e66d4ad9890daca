import Compiscript.Mips
import Compiscript.Proofs.Mips.Machine
import Compiscript.Proofs.Tac.Names

/-!
# Names and Numbers

The operands of code on integers, and how lowering tells them apart.

Lowering takes any run of digits for a number, in whatever script it is written.
An identifier is none of those, since its first character is a letter, and a
number that programs can write is one. Some names mean something of their own to
lowering; they are excluded here.
-/

namespace Compiscript

namespace Text

variable {c : Char}

/-- The digits that programs use are digits. -/
lemma isDigit_of_isDigit (h : c.isDigit = true) : isDigit c = true := by
  have hrange : 48 ≤ c.toNat ∧ c.toNat ≤ 57 := by
    simp only [Char.isDigit, Bool.and_eq_true, decide_eq_true_eq, ge_iff_le,
      UInt32.le_iff_toNat_le] at h
    exact h
  have hf : (decide (0x30 ≤ c.toNat) && decide (c.toNat < 0x30 + 10)) = true := by
    simp only [Bool.and_eq_true, decide_eq_true_eq]
    omega
  rw [isDigit, isDecimal, decimalValue?, decimalZeros, List.find?_cons, hf]
  rfl

/-- A letter of a name is not a digit, in no script. -/
lemma isDigit_of_isNameStart (h : Lexer.isNameStart c = true) : isDigit c = false := by
  have hrange : 58 ≤ c.toNat ∧ c.toNat < 128 := by
    rw [Lexer.isNameStart, Bool.or_eq_true, beq_iff_eq] at h
    rcases h with h | rfl
    · delta Char.isAlpha Char.isUpper Char.isLower at h
      simp only [Bool.or_eq_true, Bool.and_eq_true, decide_eq_true_eq, ge_iff_le,
        UInt32.le_iff_toNat_le] at h
      change (65 ≤ c.toNat ∧ c.toNat ≤ 90) ∨ (97 ≤ c.toNat ∧ c.toNat ≤ 122) at h
      omega
    · decide
  -- Below 128 there are no digits but the ten.
  have hno : ∀ n, 58 ≤ n → n < 128 →
      (decimalZeros.find? fun z => decide (z ≤ n) && decide (n < z + 10)) = none ∧
        (otherDigits.any fun r => decide (r.1 ≤ n) && decide (n ≤ r.2)) = false := by
    intro n hlo hhi
    constructor
    · rw [List.find?_eq_none]
      intro z hz
      have hz' : ∀ z ∈ decimalZeros, z = 0x30 ∨ 128 ≤ z := by decide
      rcases hz' z hz with rfl | hz
      · simp only [Bool.and_eq_true, decide_eq_true_eq]
        omega
      · simp only [Bool.and_eq_true, decide_eq_true_eq]
        omega
    · rw [List.any_eq_false]
      intro r hr
      have hr' : ∀ r ∈ otherDigits, 128 ≤ r.1 := by decide
      have := hr' r hr
      simp only [Bool.and_eq_true, decide_eq_true_eq]
      omega
  obtain ⟨hdec, hother⟩ := hno c.toNat hrange.1 hrange.2
  rw [isDigit, isDecimal, decimalValue?, hdec]
  exact hother

lemma isNumeral_of_decimal {cs : List Char} {n : Nat} (h : decimal? cs = some n) :
    isNumeral cs = true := by
  rw [decimal?] at h
  split at h
  · cases h
  · rename_i hcs
    simp only [Bool.or_eq_true, Bool.not_eq_true', not_or, Bool.not_eq_true, Bool.not_eq_false,
      List.all_eq_true] at hcs
    rw [isNumeral, hcs.1, Bool.not_false, Bool.true_and, List.all_eq_true]
    exact fun c hc => isDigit_of_isDigit (hcs.2 c hc)

end Text

namespace Mips

/-- The names that mean something of their own to lowering, besides those of parameters. -/
def reserved : List String := ["this", "nombre", "edad", "grado", "log"]

/-- Identifiers that are variables and nothing else. -/
structure IsName (x : String) : Prop where
  identifier : Lexer.kindOf? x.toList = some .identifier
  unreserved : x ∉ reserved
  noParameter : Text.startsWith "param" x = false

instance (x : String) : Decidable (IsName x) :=
  decidable_of_iff (Lexer.kindOf? x.toList = some .identifier ∧ x ∉ reserved ∧
    Text.startsWith "param" x = false) ⟨fun ⟨h1, h2, h3⟩ => ⟨h1, h2, h3⟩, fun ⟨h1, h2, h3⟩ =>
      ⟨h1, h2, h3⟩⟩

/-- Numbers that fit into a word. -/
def IsNumber (s : String) : Prop := (immediate? s).isSome = true

instance (s : String) : Decidable (IsNumber s) := inferInstanceAs (Decidable (_ = true))

/-- Operands of code on integers. -/
def IsOperand (s : String) : Prop := IsName s ∨ IsNumber s

instance (s : String) : Decidable (IsOperand s) := inferInstanceAs (Decidable (_ ∨ _))

variable {s : String}

lemma literal?_of_isNumber (h : IsNumber s) :
    ∃ n, literal? s = some n ∧ immediate? s = some (.ofInt 32 n) := by
  unfold IsNumber immediate? at h
  unfold immediate?
  split at h
  · rename_i n hn
    split at h
    · rename_i hft
      exact ⟨n, hn, by rw [if_pos hft]⟩
    · cases h
  · cases h

lemma IsNumber.isLiteral (h : IsNumber s) : Lower.isLiteral (some s) = true := by
  obtain ⟨n, hn, -⟩ := literal?_of_isNumber h
  unfold literal? at hn
  rw [Lower.isLiteral, Option.map_some]
  split at hn
  · rename_i cs heq
    obtain ⟨m, hm, -⟩ := Option.map_eq_some_iff.1 hn
    simp only [heq, Text.isNumeral_of_decimal hm, Bool.or_true]
  · obtain ⟨m, hm, -⟩ := Option.map_eq_some_iff.1 hn
    simp only [Text.isNumeral_of_decimal hm, Bool.true_or]

/-- A number is not one of the words that lowering looks for. -/
lemma IsNumber.ne {w : String} (h : IsNumber s) (hw : immediate? w = none) : s ≠ w := by
  rintro rfl
  rw [IsNumber, hw] at h
  cases h

namespace IsName

variable {x : String}

lemma exists_chars (h : IsName x) : ∃ c cs, x.toList = c :: cs ∧ Lexer.isNameStart c = true := by
  have hlexed : (⟨.identifier, x, default⟩ : Token).Lexed := .inr h.identifier
  obtain ⟨c, cs, htx, hc, -⟩ := hlexed.exists_of_identifier rfl
  exact ⟨c, cs, htx, hc⟩

lemma isVariable (h : IsName x) : Tac.IsVariable x :=
  Tac.isVariable_of_lexed (t := ⟨.identifier, x, default⟩) (.inr h.identifier) rfl

lemma isLiteral (h : IsName x) : Lower.isLiteral (some x) = false := by
  obtain ⟨c, cs, htx, hc⟩ := h.exists_chars
  have hf : Text.isNumeral (c :: cs) = false := by
    rw [Text.isNumeral, List.all_cons, Text.isDigit_of_isNameStart hc, Bool.false_and,
      Bool.and_false]
  rw [Lower.isLiteral, Option.map_some, htx]
  change (Text.isNumeral (c :: cs) || _) = false
  rw [hf, Bool.false_or]
  split
  · rename_i heq
    cases heq
    cases hc
  · rfl

lemma isQuoted (h : IsName x) : isQuoted x = false := by
  obtain ⟨c, cs, htx, hc⟩ := h.exists_chars
  have hne : c ≠ '"' := by
    rintro rfl
    cases hc
  rw [Mips.isQuoted, htx, List.head?_cons]
  simp [hne]

lemma parameter?_eq_none (h : IsName x) : Lower.parameter? x = none := by
  rw [Lower.parameter?, h.noParameter]
  rfl

lemma ne (h : IsName x) {w : String} (hw : w ∈ reserved) : x ≠ w := by
  rintro rfl
  exact h.unreserved hw

end IsName

lemma IsNumber.isQuoted (h : IsNumber s) : isQuoted s = false := by
  obtain ⟨n, hn, -⟩ := literal?_of_isNumber h
  rw [Mips.isQuoted, Bool.and_eq_false_iff]
  left
  cases hcs : s.toList with
  | nil => rfl
  | cons c cs =>
    -- A quote is neither a minus sign nor a digit.
    have hne : c ≠ '"' := by
      rintro rfl
      unfold literal? at hn
      rw [hcs] at hn
      cases hn
    simp [hne]

end Mips

end Compiscript
