import Compiscript.Proofs.Token.Pattern
import Compiscript.Token.Lexer

/-!
# What Tokens Look Like

Every token that the lexer makes looks like its kind, and no kind that comes
before it in the list of lexical rules.
-/

namespace Compiscript

open List

namespace Lexer

/-- The kind of a text, by the first rule that matches it. -/
def kindOf? (w : List Char) : Option Kind :=
  winner? (lexicalRules.map fun r => (r.1, r.2.afterAll w))

/-- The rules that may still match after a text. -/
def readAll (w : List Char) (rules : List (Kind × Pattern)) : List (Kind × Pattern) :=
  w.foldl (fun rules c => readOn c rules) rules

lemma afterAll_never (w : List Char) : Pattern.never.afterAll w = .never := by
  induction w with
  | nil => rfl
  | cons c w ih => exact ih

lemma winner?_cons (k : Kind) (p : Pattern) (rules : List (Kind × Pattern)) :
    winner? ((k, p) :: rules) = if p.isDone then some k else winner? rules := by
  rw [winner?, find?_cons]
  cases p.isDone <;> rfl

lemma winner?_readOn (c : Char) (w : List Char) (rules : List (Kind × Pattern)) :
    winner? ((readOn c rules).map fun r => (r.1, r.2.afterAll w)) =
      winner? (rules.map fun r => (r.1, r.2.afterAll (c :: w))) := by
  induction rules with
  | nil => rfl
  | cons r rules ih =>
    rcases r with ⟨k, p⟩
    have hafter : p.afterAll (c :: w) = (p.after c).afterAll w := rfl
    by_cases hdead : (p.after c).isDead = true
    · have hnever : p.after c = .never := by
        cases h : p.after c <;> first | rfl | (rw [h] at hdead; cases hdead)
      have hsk : readOn c ((k, p) :: rules) = readOn c rules := by
        rw [readOn, filterMap_cons]
        simp [hdead, readOn]
      rw [hsk, ih, map_cons, hafter, hnever, afterAll_never]
      rfl
    · have hkeep : readOn c ((k, p) :: rules) = (k, p.after c) :: readOn c rules := by
        rw [readOn, filterMap_cons]
        simp [hdead, readOn]
      rw [hkeep, map_cons, map_cons, winner?_cons, winner?_cons, ih]
      rfl

/-- A race knows the kind of what was read. -/
lemma winner?_readAll (w : List Char) (rules : List (Kind × Pattern)) :
    winner? (readAll w rules) = winner? (rules.map fun r => (r.1, r.2.afterAll w)) := by
  induction w generalizing rules with
  | nil => exact congrArg winner? (map_id' rules).symm
  | cons c w ih =>
    rw [← winner?_readOn]
    exact ih (readOn c rules)

lemma kindOf?_of_race {u cs : List Char} {best : Option (Kind × Nat)} {k : Kind} {len seen : Nat}
    (h : race (readAll u lexicalRules) best u.length cs = (some (k, len), seen)) :
    best = some (k, len) ∨
      ∃ v, v <+: cs ∧ len = u.length + v.length ∧ v ≠ [] ∧ kindOf? (u ++ v) = some k := by
  induction cs generalizing u best with
  | nil =>
    injection h with h
    exact .inl h
  | cons c cs ih =>
    have hleft : readOn c (readAll u lexicalRules) = readAll (u ++ [c]) lexicalRules := by
      rw [readAll, readAll, foldl_append]
      rfl
    have hlen : u.length + 1 = (u ++ [c]).length := by simp
    rw [race] at h
    split at h
    · injection h with h
      exact .inl h
    · rw [hleft] at h
      dsimp only at h
      rw [hlen] at h
      rcases ih h with hbest | ⟨v, hv, hv', -, hkd⟩
      · rw [winner?_readAll] at hbest
        split at hbest
        · rename_i k' hk'
          injection hbest with hbest
          injection hbest with hk hn
          subst hk
          exact .inr ⟨[c], by simp, by rw [← hn, ← hlen]; rfl, by simp, hk'⟩
        · exact .inl hbest
      · refine .inr ⟨c :: v, ?_, ?_, by simp, ?_⟩
        · exact cons_prefix_cons.2 ⟨rfl, hv⟩
        · rw [hv', ← hlen, length_cons]
          omega
        · rw [← hkd, append_assoc]
          rfl

end Lexer

/-- A token of the right kind: the end of the input, or what the lexical rules make of its text. -/
def Token.Lexed (t : Token) : Prop :=
  t.kind = .endOfInput ∨ Lexer.kindOf? t.text.toList = some t.kind

variable {cs : List Char} {k : Kind}

lemma kindOf?_of_cut_head {c : Char} {len seen : Nat}
    (h : Lexer.race lexicalRules none 0 (c :: cs) = (some (k, len), seen)) :
    Lexer.kindOf? (c :: cs.take (len - 1)) = some k := by
  have hrace : Lexer.race (Lexer.readAll [] lexicalRules) none ([] : List Char).length (c :: cs) =
      (some (k, len), seen) := h
  rcases Lexer.kindOf?_of_race hrace with hno | ⟨v, hv, hlen, hne, hkd⟩
  · cases hno
  · cases v with
    | nil => exact absurd rfl hne
    | cons d v =>
      obtain ⟨rfl, hv'⟩ := cons_prefix_cons.1 hv
      rw [length_nil, Nat.zero_add, length_cons] at hlen
      rw [hlen, Nat.add_sub_cancel, ← prefix_iff_eq_take.1 hv']
      exact hkd

lemma kindOf?_of_mem_cut {pos : Pos} {piece : Piece}
    (h : piece ∈ cut pos cs) (hk : piece.fate = .token k) : Lexer.kindOf? piece.text = some k := by
  fun_induction cut pos cs with
  | case1 => cases h
  | case2 pos c cs fate len heq text ih =>
    rcases mem_cons.1 h with rfl | h
    · split at heq
      · rename_i k' len' seen hrace
        injection heq with hfate hlen
        subst hlen
        obtain rfl : k' = k := by
          rw [← hfate] at hk
          injection hk
        exact kindOf?_of_cut_head hrace
      · injection heq with hfate
        rw [← hfate] at hk
        cases hk
    · exact ih h

/-- The tokens of a text are of the right kind. -/
lemma lexed_of_mem_tokens {source : String} {t : Token} (h : t ∈ tokens source) : t.Lexed := by
  rw [tokens] at h
  rcases mem_append.1 h with h | h
  · obtain ⟨piece, hpiece, ht⟩ := mem_filterMap.1 h
    split at ht
    · rename_i k hfate
      split at ht
      · cases ht
      · cases ht
        right
        rw [String.toList_ofList]
        exact kindOf?_of_mem_cut hpiece hfate
    · cases ht
  · exact .inl (mem_singleton.1 h ▸ rfl)

namespace Token.Lexed

variable {t : Token}

lemma matches_patternOf (h : t.Lexed) (hk : t.kind ≠ .endOfInput) :
    (Lexer.patternOf t.kind).Matches t.text.toList := by
  have hkd := h.resolve_left hk
  obtain ⟨r, hr, hkr⟩ := Option.map_eq_some_iff.1 hkd
  have hdn := find?_some hr
  obtain ⟨r', hr', rfl⟩ := mem_map.1 (mem_of_find?_eq_some hr)
  obtain ⟨k, -, rfl⟩ := mem_map.1 hr'
  rw [← hkr]
  exact Pattern.isDone_afterAll.1 hdn

variable {s : String}

lemma text_eq (h : t.Lexed) (hs : t.kind.spelling? = some s) : t.text = s := by
  have hpat : ∀ k : Kind, k.spelling? = some s → Lexer.patternOf k = .text s := by
    intro k hk
    unfold Lexer.patternOf
    split <;> first | cases hk | (rw [hk]; rfl)
  have hend : t.kind ≠ .endOfInput := by
    intro hend
    rw [hend] at hs
    cases hs
  have hmat := h.matches_patternOf hend
  rw [hpat _ hs] at hmat
  exact String.toList_injective (Pattern.matches_text.1 hmat)

/-- Names begin with a letter or an underscore. -/
lemma exists_of_identifier (h : t.Lexed) (hk : t.kind = .identifier) :
    ∃ c cs, t.text.toList = c :: cs ∧ Lexer.isNameStart c = true ∧
      ∀ d ∈ cs, Lexer.isNameRest d = true := by
  have hmat := h.matches_patternOf (by rw [hk]; decide)
  rw [hk] at hmat
  obtain ⟨u, v, huv, hu, hv⟩ := Pattern.matches_seq.1 hmat
  obtain ⟨c, rfl, hc⟩ := Pattern.matches_one.1 hu
  exact ⟨c, v, huv, hc, Pattern.matches_many_one.1 hv⟩

/-- A text that an earlier rule matches is no name. -/
lemma text_ne_of_identifier (h : t.Lexed) (hk : t.kind = .identifier)
    (hs : Lexer.kindOf? s.toList = some k) (hne : k ≠ .identifier) : t.text ≠ s := by
  rintro rfl
  have hkd := h.resolve_left (by rw [hk]; decide)
  rw [hs, hk] at hkd
  injection hkd with hkd
  exact hne hkd

/-- A literal is a run of digits or a text in quotes. -/
lemma digits_or_quoted (h : t.Lexed) (hk : t.kind = .literal) :
    (t.text.toList ≠ [] ∧ ∀ c ∈ t.text.toList, c.isDigit = true) ∨
      t.text.toList.head? = some '"' := by
  have hmat := h.matches_patternOf (by rw [hk]; decide)
  rw [hk] at hmat
  rcases Pattern.matches_alt.1 hmat with hint | hstr
  · obtain ⟨u, v, huv, hu, hv⟩ := Pattern.matches_seq.1 hint
    obtain ⟨c, rfl, hc⟩ := Pattern.matches_one.1 hu
    rw [huv]
    refine .inl ⟨by simp, ?_⟩
    rw [singleton_append, forall_mem_cons]
    exact ⟨hc, Pattern.matches_many_one.1 hv⟩
  · obtain ⟨u, v, huv, hu, -⟩ := Pattern.matches_seq.1 hstr
    obtain ⟨c, rfl, hc⟩ := Pattern.matches_one.1 hu
    rw [huv]
    exact .inr (congrArg some (eq_of_beq hc))

end Token.Lexed

end Compiscript
