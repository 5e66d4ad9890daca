import Compiscript.Proofs.Tac.Machine
import Compiscript.Proofs.Token.Lexed

/-!
# Made-Up Names

Temporaries and labels are numbered, and a number can be read off a name.

So two temporaries with different numbers are different variables, two labels
with different numbers are different places, and a variable of the program is
no temporary unless it looks like one.
-/

namespace Compiscript

/-- The digits of a number are read as that number. -/
lemma decimal?_toList_toString (n : Nat) : decimal? (toString n).toList = some n := by
  rw [Nat.toString_eq_repr, Nat.toList_repr, decimal?]
  have hdig : (Nat.toDigits 10 n).all Char.isDigit = true :=
    List.all_eq_true.2 fun c hc => Nat.isDigit_of_mem_toDigits (by omega) (by omega) hc
  rw [hdig, Nat.ofDigitChars_ten_toDigits]
  simp

variable {n : Nat}

lemma toString_nat_injective {m : Nat} (h : toString m = toString n) : m = n := by
  have hrd : decimal? (toString m).toList = decimal? (toString n).toList := by rw [h]
  rw [decimal?_toList_toString, decimal?_toList_toString] at hrd
  exact Option.some.inj hrd

/-- A run of digits stands for a number. -/
lemma literal?_of_decimal? {s : String} (h : decimal? s.toList = some n) : literal? s = some n := by
  unfold literal?
  split
  · rename_i cs heq
    rw [heq, decimal?, List.all_cons] at h
    simp at h
  · rw [h]
    rfl

lemma Lexer.isDigit_of_isNameStart {c : Char} (h : Lexer.isNameStart c = true) :
    c.isDigit = false := by
  rw [Lexer.isNameStart, Bool.or_eq_true, beq_iff_eq] at h
  rcases h with h | rfl
  · delta Char.isAlpha Char.isUpper Char.isLower at h
    grind [Char.isDigit]
  · rfl

namespace Tac

/-- Identifiers are variables for the machine. -/
lemma isVariable_of_lexed {t : Token} (h : t.Lexed) (hk : t.kind = .identifier) :
    IsVariable t.text := by
  obtain ⟨c, cs, htx, hc, -⟩ := h.exists_of_identifier hk
  have hdec : decimal? (c :: cs) = none := by
    rw [decimal?, List.all_cons, Lexer.isDigit_of_isNameStart hc]
    rfl
  refine ⟨?_, ?_, ?_⟩
  · unfold literal?
    rw [htx]
    split
    · -- A minus sign cannot start a name either.
      rename_i heq
      cases heq
      cases hc
    · rw [hdec]
      rfl
  · exact h.text_ne_of_identifier hk (k := .kwTrue) (by decide) (by decide)
  · exact h.text_ne_of_identifier hk (k := .kwFalse) (by decide) (by decide)

/-- The label with a number. -/
def labelName (n : Nat) : String := "L" ++ toString n

variable {m n : Nat}

lemma labelName_injective (h : labelName m = labelName n) : m = n :=
  toString_nat_injective ((String.append_right_inj "L").1 h)

/-- Whether a name looks like that of a temporary: a `t` and digits. -/
def isTempName (x : String) : Bool :=
  match x.toList with
  | 't' :: cs => (decimal? cs).isSome
  | _ => false

lemma isTempName_of_decimal? {s : String} (h : decimal? s.toList = some n) :
    isTempName s = false := by
  unfold isTempName
  split
  · rename_i cs heq
    rw [heq, decimal?, List.all_cons] at h
    simp at h
  · rfl

lemma tempName_natCast (n : Nat) : tempName (.int n) = "t" ++ toString n := rfl

lemma isTempName_tempName (n : Nat) : isTempName (tempName (.int n)) = true := by
  have hlist : (tempName (.int n)).toList = 't' :: (toString n).toList := by
    rw [tempName_natCast, String.toList_append]
    rfl
  rw [isTempName, hlist]
  change (decimal? (toString n).toList).isSome = true
  rw [decimal?_toList_toString]
  rfl

lemma tempName_injective (h : tempName (.int m) = tempName (.int n)) : m = n :=
  toString_nat_injective ((String.append_right_inj "t").1 h)

lemma isVariable_tempName (n : Nat) : IsVariable (tempName (.int n)) := by
  have hlist : (tempName (.int n)).toList = 't' :: (toString n).toList := by
    rw [tempName_natCast, String.toList_append]
    rfl
  refine ⟨?_, ?_, ?_⟩
  · rw [literal?, hlist]
    simp [decimal?]
  · intro h
    have := isTempName_tempName n
    rw [h] at this
    exact absurd this (by decide)
  · intro h
    have := isTempName_tempName n
    rw [h] at this
    exact absurd this (by decide)

/-- A temporary reads as what was written to it. -/
lemma read_write_temp {V : Type} {A : Arith V} {j : Int} (hj : 0 ≤ j) (s : State V) (v : V) :
    read A (s.write (tempName (.int j)) v).store (tempName (.int j)) = v := by
  obtain ⟨n, rfl⟩ := Int.eq_ofNat_of_zero_le hj
  rw [read_of_isVariable (isVariable_tempName n)]
  exact Function.update_self _ _ _

end Tac

end Compiscript
