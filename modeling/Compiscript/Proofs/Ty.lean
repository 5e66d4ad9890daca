import Compiscript.Ty
import Mathlib.Logic.Function.Iterate

/-!
# Written and Accepted Types

Only the last pair is read as such. What stands before it is taken for a name as a whole, so
with two pairs or more the elements of the array belong to a class whose name has brackets in
it. No value of nested arrays has such a type.

## Theorems

* `Ty.written_array`: What a type denotes that is written with pairs of brackets.
* `Ty.accepts_iff_eq`: Types that are known in all their parts accept themselves only.
-/

namespace Compiscript.Ty

/-- A name with pairs of brackets behind it. -/
def written (base : String) : Nat → String
  | 0 => base
  | n + 1 => written base n ++ "[]"

/-- The type that a name without brackets denotes. -/
def named (x : String) : Ty := (primitive? x).getD (.class x)

lemma isProper_named (x : String) : (named x).IsProper := by
  unfold named primitive?
  split <;> trivial

/-- No built-in type has brackets in its name. -/
lemma named_append_brackets (x : String) : named (x ++ "[]") = .class (x ++ "[]") := by
  have hla : (x ++ "[]").toLower.toList.getLast? = some ']' := by
    change ((x ++ "[]").map Char.toLower).toList.getLast? = _
    rw [String.toList_map, String.toList_append, List.map_append, List.getLast?_append]
    rfl
  unfold named primitive?
  split
  all_goals first
    | rfl
    | rename_i hnm
      rw [hnm] at hla
      exact absurd hla (by decide)

lemma ofName_append_brackets (x : String) : ofName (x ++ "[]") = array (named x) := by
  have hlen : (x ++ "[]").toList.length - 2 = x.toList.length := by
    rw [String.toList_append, List.length_append]
    rfl
  have hne : (x ++ "[]").isEmpty = false := by simp
  unfold ofName
  rw [hne]
  dsimp only
  rw [hlen, String.toList_append, List.drop_left, List.take_left, String.ofList_toList]
  rfl

lemma ofName_of_not_mem {x : String} (hne : x ≠ "") (hx : ']' ∉ x.toList) (hvoid : x ≠ "void") :
    ofName x = named x := by
  have hdrop : x.toList.drop (x.toList.length - 2) ≠ ['[', ']'] := by
    intro h
    exact hx (List.mem_of_mem_drop (h ▸ (by simp : ']' ∈ ['[', ']'])))
  unfold ofName named
  rw [if_neg (by simpa using hne)]
  dsimp only
  rw [if_neg hdrop]
  cases primitive? x with
  | none => exact if_neg hvoid
  | some T => rfl

/-- Without brackets and with one pair a written type is what it says. With more pairs it is an
    array of a class. So it accepts nested arrays of its dimension only if there is at most one
    pair. -/
theorem written_array {base : String} (hne : base ≠ "") (hbase : ']' ∉ base.toList)
    (hvoid : base ≠ "void") (n : Nat) :
    (ofName (written base n) = match n with
      | 0 => named base
      | 1 => array (named base)
      | k + 2 => array (.class (written base (k + 1)))) ∧
    (ofName (written base n)).accepts? (array^[n] (named base)) = some (decide (n ≤ 1)) := by
  match n with
  | 0 =>
    have hnm : ofName (written base 0) = named base := ofName_of_not_mem hne hbase hvoid
    exact ⟨hnm, by rw [hnm]; exact accepts?_self _ (isProper_named base)⟩
  | 1 =>
    have hnm : ofName (written base 1) = array (named base) := ofName_append_brackets base
    exact ⟨hnm, by rw [hnm]; exact accepts?_self (array _) (isProper_named base)⟩
  | k + 2 =>
    have hnm : ofName (written base (k + 2)) = array (.class (written base (k + 1))) := by
      rw [written, ofName_append_brackets, written, named_append_brackets]
    refine ⟨hnm, ?_⟩
    rw [hnm, Function.iterate_succ_apply', Function.iterate_succ_apply']
    rfl

theorem written_array_two : ofName (written "integer" 2) = array (.class (written "integer" 1)) ∧
      (ofName (written "integer" 2)).accepts? (array (array (named "integer"))) = some false :=
  written_array (by decide) (by decide) (by decide) 2

/-- The types that are known in all their parts. -/
def Proper : Type := { t : Ty // t.IsProper }

/-- Between such types there is always an answer, which is whether they are the same, so to
    accept is an equivalence. What has no type is not accepted. -/
theorem accepts_iff_eq :
    (∀ a b : Proper, a.1.accepts? b.1 = some (decide (a.1 = b.1))) ∧
      Equivalence (fun a b : Proper => a.1.accepts? b.1 = some true) ∧
      ∀ a : Proper, a.1.accepts? unknown = some false := by
  have hiff : ∀ a b : Proper, a.1.accepts? b.1 = some true ↔ a.1 = b.1 := fun a b => by
    simp [accepts?_of_isProper a.2]
  refine ⟨fun a b => accepts?_of_isProper a.2 b.1, ?_, fun a => ?_⟩
  · simp only [hiff]
    exact ⟨fun _ => rfl, Eq.symm, Eq.trans⟩
  · have hne : a.1 ≠ unknown := fun h => (h ▸ a.2 : IsProper unknown)
    rw [accepts?_of_isProper a.2, decide_eq_false hne]

end Compiscript.Ty
