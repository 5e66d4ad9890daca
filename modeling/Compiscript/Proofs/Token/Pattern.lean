import Compiscript.Token.Pattern
import Mathlib.Logic.Basic

/-!
# Reading a Text with a Pattern

Reading a text character by character tells whether a pattern matches it.
-/

namespace Compiscript.Pattern

variable {p q : Pattern} {c : Char} {w : List Char}

lemma matches_never : ¬never.Matches w := by
  rintro ⟨⟩

lemma matches_done : done.Matches w ↔ w = [] := by
  constructor
  · rintro ⟨⟩
    rfl
  · rintro rfl
    exact .done

variable {class? : Char → Bool}

lemma matches_one : (one class?).Matches w ↔ ∃ c, w = [c] ∧ class? c = true := by
  constructor
  · rintro (_ | h)
    exact ⟨_, rfl, h⟩
  · rintro ⟨c, rfl, h⟩
    exact .one h

lemma matches_seq : (seq p q).Matches w ↔ ∃ u v, w = u ++ v ∧ p.Matches u ∧ q.Matches v := by
  constructor
  · intro h
    cases h with
    | seq hp hq => exact ⟨_, _, rfl, hp, hq⟩
  · rintro ⟨u, v, rfl, hp, hq⟩
    exact .seq hp hq

lemma matches_seq_cons : (seq p q).Matches (c :: w) ↔
    (∃ u v, w = u ++ v ∧ p.Matches (c :: u) ∧ q.Matches v) ∨ p.Matches [] ∧ q.Matches (c :: w) := by
  rw [matches_seq]
  constructor
  · rintro ⟨u, v, hw, hp, hq⟩
    cases u with
    | nil => exact .inr ⟨hp, hw ▸ hq⟩
    | cons d u =>
      rw [List.cons_append] at hw
      injection hw with hc hw
      subst hc
      exact .inl ⟨u, v, hw, hp, hq⟩
  · rintro (⟨u, v, rfl, hp, hq⟩ | ⟨hp, hq⟩)
    · exact ⟨c :: u, v, rfl, hp, hq⟩
    · exact ⟨[], c :: w, rfl, hp, hq⟩

lemma matches_alt : (alt p q).Matches w ↔ p.Matches w ∨ q.Matches w := by
  constructor
  · intro h
    cases h with
    | left h => exact .inl h
    | right h => exact .inr h
  · rintro (h | h)
    · exact .left h
    · exact .right h

lemma matches_many_cons : (many p).Matches (c :: w) ↔
    ∃ u v, w = u ++ v ∧ p.Matches (c :: u) ∧ (many p).Matches v := by
  constructor
  · intro h
    generalize hq : many p = q at h
    generalize hx : c :: w = x at h
    induction h with
    | stop => cases hx
    | @more p' u v hp hv _ ih =>
      obtain rfl : p = p' := by injection hq
      cases u with
      | nil => exact ih rfl hx
      | cons d u =>
        rw [List.cons_append] at hx
        injection hx with hc hw
        subst hc
        exact ⟨u, v, hw, hp, hv⟩
    | _ => cases hq
  · rintro ⟨u, v, rfl, hp, hv⟩
    exact .more hp hv

lemma matches_join : (join p q).Matches w ↔ (seq p q).Matches w := by
  have hnever : ∀ p q : Pattern, (p = never ∨ q = never) → ¬(seq p q).Matches w := by
    rintro p q hpq h
    obtain ⟨u, v, -, hp, hq⟩ := matches_seq.1 h
    rcases hpq with rfl | rfl
    · exact matches_never hp
    · exact matches_never hq
  unfold join
  split
  · exact iff_of_false matches_never (hnever _ _ (.inl rfl))
  · exact iff_of_false matches_never (hnever _ _ (.inr rfl))
  · rw [matches_seq]
    constructor
    · exact fun h => ⟨[], w, rfl, .done, h⟩
    · rintro ⟨u, v, rfl, hu, hv⟩
      cases matches_done.1 hu
      exact hv
  · exact Iff.rfl

lemma matches_either : (either p q).Matches w ↔ p.Matches w ∨ q.Matches w := by
  unfold either
  split
  · exact ⟨.inr, fun h => h.resolve_left matches_never⟩
  · exact ⟨.inl, fun h => h.resolve_right matches_never⟩
  · exact matches_alt

/-- What remains of a pattern after a character matches the rest. -/
lemma matches_after : (p.after c).Matches w ↔ p.Matches (c :: w) := by
  induction p generalizing w with
  | never => exact iff_of_false matches_never matches_never
  | done => exact iff_of_false matches_never (by simp [matches_done])
  | one class? =>
    rw [after, matches_one]
    split
    · rename_i hc
      rw [matches_done]
      constructor
      · rintro rfl
        exact ⟨c, rfl, hc⟩
      · rintro ⟨d, hd, -⟩
        injection hd
    · rename_i hc
      refine iff_of_false matches_never ?_
      rintro ⟨d, hd, hcl⟩
      injection hd with hd
      exact hc (hd ▸ hcl)
  | seq p q ihp ihq =>
    rw [after, matches_seq_cons, ← matches_nil_iff]
    split
    · rename_i hdn
      rw [matches_either, matches_join, matches_seq, ihq]
      simp only [ihp, hdn, true_and]
    · rename_i hdn
      rw [matches_join, matches_seq]
      simp only [ihp, hdn, Bool.false_eq_true, false_and, or_false]
  | alt p q ihp ihq => rw [after, matches_either, matches_alt, ihp, ihq]
  | many p ih =>
    rw [after, matches_join, matches_seq, matches_many_cons]
    simp only [ih]

/-- What remains of a pattern after a text. -/
def afterAll (p : Pattern) (w : List Char) : Pattern := w.foldl (fun p c => p.after c) p

/-- Reading a text tells whether a pattern matches it. -/
lemma isDone_afterAll : (p.afterAll w).isDone = true ↔ p.Matches w := by
  induction w generalizing p with
  | nil => exact matches_nil_iff p
  | cons c w ih => exact ih.trans matches_after

lemma matches_text {s : String} : (text s).Matches w ↔ w = s.toList := by
  rw [text]
  generalize s.toList = cs
  induction cs generalizing w with
  | nil => exact matches_done
  | cons c cs ih =>
    rw [List.foldr_cons, matches_join, matches_seq]
    constructor
    · rintro ⟨u, v, rfl, hu, hv⟩
      obtain ⟨d, rfl, hd⟩ := matches_one.1 hu
      rw [ih.1 hv, eq_of_beq hd]
      rfl
    · rintro rfl
      exact ⟨[c], cs, rfl, .one (beq_self_eq_true c), ih.2 rfl⟩

/-- A text of many characters of a class. -/
lemma matches_many_one : (many (one class?)).Matches w ↔ ∀ c ∈ w, class? c = true := by
  induction w with
  | nil => exact iff_of_true .stop (by simp)
  | cons c w ih =>
    rw [matches_many_cons, List.forall_mem_cons, ← ih]
    constructor
    · rintro ⟨u, v, rfl, hu, hv⟩
      obtain ⟨d, hd, hcl⟩ := matches_one.1 hu
      injection hd with hc hu
      subst hc hu
      exact ⟨hcl, hv⟩
    · rintro ⟨hc, hw⟩
      exact ⟨[], w, rfl, .one hc, hw⟩

end Compiscript.Pattern
