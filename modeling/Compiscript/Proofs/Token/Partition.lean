import Compiscript.Parse.Error
import Compiscript.Proofs.Token.Munch

/-!
# Cutting a Text into Pieces

## Theorems

* `lexing_partitions`: The pieces of a text are the text, each is the longest match where
  it begins, and each is at the place where its first character stands.
-/

namespace Compiscript

open List

namespace Lexer

variable {u v w : List Char} {c : Char} {k : Kind}

/-! ### Block comments -/

/-- Whether a text is closed by `*/` at its end and not before. `star` tells that
    a star stands in front of it. -/
def closes : (star : Bool) → List Char → Bool
  | _, [] => false
  | star, c :: w =>
    if c = '*' then closes true w
    else if star && c = '/' then w.isEmpty
    else closes false w

/-- A text that ends with `*/` and has it nowhere else. -/
def ClosedOnce (w : List Char) : Prop :=
  ∃ body, w = body ++ ['*', '/'] ∧ ¬['*', '/'] <:+: body ++ ['*']

lemma closedOnce_cons (h : ¬(c = '*' ∧ w.head? = some '/')) :
    ClosedOnce (c :: w) ↔ ClosedOnce w := by
  constructor
  · rintro ⟨body, hw, hno⟩
    cases body with
    | nil =>
      obtain ⟨rfl, rfl⟩ := cons.inj hw
      exact absurd ⟨rfl, rfl⟩ h
    | cons d body =>
      obtain ⟨rfl, rfl⟩ := cons.inj hw
      exact ⟨body, rfl, fun hin => hno (infix_cons hin)⟩
  · rintro ⟨body, rfl, hno⟩
    refine ⟨c :: body, rfl, fun hin => ?_⟩
    rcases infix_cons_iff.1 hin with hpre | hin
    · obtain ⟨rfl, hslash⟩ := cons_prefix_cons.1 hpre
      refine h ⟨rfl, ?_⟩
      cases body with
      | nil => exact absurd (cons_prefix_cons.1 hslash).1 (by decide)
      | cons d body => exact congrArg some (cons_prefix_cons.1 hslash).1.symm
    · exact hno hin

lemma not_closedOnce_singleton : ¬ClosedOnce [c] := by
  rintro ⟨body, hw, -⟩
  have := congrArg length hw
  simp at this

lemma closedOnce_slash : ClosedOnce ('*' :: '/' :: w) ↔ w = [] := by
  constructor
  · rintro ⟨body, hw, hno⟩
    match body with
    | [] => simpa using hw
    | [d] =>
      obtain ⟨-, hw⟩ := cons.inj hw
      exact absurd (cons.inj hw).1 (by decide)
    | d :: e :: body =>
      obtain ⟨rfl, hr⟩ := cons.inj hw
      obtain ⟨rfl, -⟩ := cons.inj hr
      exact absurd ⟨[], body ++ ['*'], rfl⟩ hno
  · rintro rfl
    exact ⟨[], rfl, by decide⟩

lemma closes_iff (w : List Char) :
    (closes false w = true ↔ ClosedOnce w) ∧ (closes true w = true ↔ ClosedOnce ('*' :: w)) := by
  induction w with
  | nil =>
    refine ⟨iff_of_false (by simp [closes]) ?_, iff_of_false (by simp [closes])
      not_closedOnce_singleton⟩
    rintro ⟨body, hw, -⟩
    simp at hw
  | cons c w ih =>
    rw [closes, closes]
    by_cases hstar : c = '*'
    · subst hstar
      rw [if_pos rfl, if_pos rfl]
      exact ⟨ih.2, ih.2.trans (closedOnce_cons (by simp)).symm⟩
    · rw [if_neg hstar, if_neg hstar]
      have hcons := closedOnce_cons (c := c) (w := w) (fun h => hstar h.1)
      refine ⟨ih.1.trans hcons.symm, ?_⟩
      by_cases hslash : c = '/'
      · subst hslash
        rw [if_pos (by decide), List.isEmpty_iff]
        exact closedOnce_slash.symm
      · rw [if_neg (by simpa using hslash)]
        refine ih.1.trans (hcons.symm.trans (closedOnce_cons ?_).symm)
        rintro ⟨-, hhd⟩
        exact hslash (Option.some.inj hhd)

/-- What may stand inside a block comment. -/
def insideComment : Pattern :=
  .many (.alt (.one (· != '*')) (.seq (.some (.char '*')) (.one fun c => c != '*' && c != '/')))

/-- What is to come in a block comment. -/
def toComeInComment : Pattern := .seq insideComment (.seq (.some (.char '*')) (.char '/'))

/-- What is to come in a block comment behind a star. -/
def toComeBehindStar : Pattern :=
  .alt
    (.seq (.seq (.seq (.many (.char '*')) (.one fun c => c != '*' && c != '/')) insideComment)
      (.seq (.some (.char '*')) (.char '/')))
    (.seq (.many (.char '*')) (.char '/'))

lemma after_toComeInComment : toComeInComment.after c =
    if c = '*' then toComeBehindStar else toComeInComment := by
  by_cases hstar : c = '*' <;>
    simp [toComeInComment, toComeBehindStar, insideComment, Pattern.after, Pattern.isDone,
      Pattern.join, Pattern.either, Pattern.some, Pattern.char, hstar]

lemma after_toComeBehindStar : toComeBehindStar.after c =
    if c = '*' then toComeBehindStar else if c = '/' then .done else toComeInComment := by
  by_cases hstar : c = '*'
  · simp [toComeBehindStar, insideComment, Pattern.after, Pattern.isDone, Pattern.join,
      Pattern.either, Pattern.some, Pattern.char, hstar]
  · by_cases hslash : c = '/' <;>
      simp [toComeInComment, toComeBehindStar, insideComment, Pattern.after, Pattern.isDone,
        Pattern.join, Pattern.either, Pattern.some, Pattern.char, hstar, hslash]

lemma matches_toCome (w : List Char) : (toComeInComment.Matches w ↔ closes false w = true) ∧
    (toComeBehindStar.Matches w ↔ closes true w = true) := by
  induction w with
  | nil =>
    rw [← Pattern.matches_nil_iff, ← Pattern.matches_nil_iff]
    decide
  | cons c w ih =>
    rw [← Pattern.matches_after, ← Pattern.matches_after, after_toComeInComment,
      after_toComeBehindStar, closes, closes]
    by_cases hstar : c = '*'
    · simp only [if_pos hstar]
      exact ⟨ih.2, ih.2⟩
    · simp only [if_neg hstar]
      refine ⟨ih.1, ?_⟩
      by_cases hslash : c = '/'
      · simp [hslash, Pattern.matches_done]
      · simpa [hslash] using ih.1

/-- A block comment begins with `/*` and ends at the first `*/` behind that. -/
lemma spells_blockComment :
    Spells .blockComment w ↔ ∃ inside, w = '/' :: '*' :: inside ∧ ClosedOnce inside := by
  have hseq : Spells .blockComment w ↔ (Pattern.seq (.text "/*") toComeInComment).Matches w :=
    Iff.rfl
  rw [hseq, Pattern.matches_seq]
  constructor
  · rintro ⟨u, v, rfl, hu, hv⟩
    cases Pattern.matches_text.1 hu
    exact ⟨v, rfl, (closes_iff v).1.1 ((matches_toCome v).1.1 hv)⟩
  · rintro ⟨v, rfl, hv⟩
    exact ⟨['/', '*'], v, rfl, Pattern.matches_text.2 rfl,
      (matches_toCome v).1.2 ((closes_iff v).1.2 hv)⟩

/-- What is closed once is not closed again further on. -/
lemma ClosedOnce.eq_nil (h : ClosedOnce v) (h' : ClosedOnce (v ++ u)) : u = [] := by
  obtain ⟨body, rfl, -⟩ := h
  obtain ⟨body', hbody', hno⟩ := h'
  by_contra hne
  refine hno ?_
  -- The end of the first text lies in the second one before its end.
  have hpre : body ++ ['*', '/'] <+: body' ++ ['*'] := by
    have hspl : body' ++ ['*', '/'] = (body' ++ ['*']) ++ ['/'] := by simp
    have hwhole : body ++ ['*', '/'] <+: body' ++ ['*', '/'] := ⟨u, hbody'⟩
    refine prefix_of_prefix_length_le hwhole ⟨['/'], hspl.symm⟩ ?_
    have hlen := congrArg length hbody'
    have hpos := length_pos_iff.2 hne
    simp only [length_append, length_cons, length_nil] at hlen ⊢
    omega
  exact IsInfix.trans ⟨body, [], by simp⟩ hpre.isInfix

/-- No other kind has a text that begins like a block comment. -/
lemma eq_blockComment (h : Spells k ('/' :: '*' :: w)) : k = .blockComment := by
  have hmem := mem_readAll_of_spells (u := ['/', '*']) h
  have hkds : (readAll ['/', '*'] lexicalRules).map (·.1) = [.blockComment] := by decide
  exact mem_singleton.1 (hkds ▸ mem_map_of_mem hmem)

end Lexer

/-! ### Places -/

lemma Pos.afterAll_concat (p : Pos) (w : List Char) (c : Char) :
    p.afterAll (w ++ [c]) = (p.afterAll w).after c := by
  rw [afterAll, afterAll, foldl_append]
  rfl

lemma Pos.afterAll_append (p : Pos) (u v : List Char) :
    p.afterAll (u ++ v) = (p.afterAll u).afterAll v :=
  foldl_append

/-- The line of a place is one more than the line feeds before it, and its column
    is the number of characters since the last of them. -/
lemma Pos.afterAll_start (w : List Char) : Pos.start.afterAll w =
    ⟨1 + w.count '\n', (w.reverse.takeWhile (· != '\n')).length⟩ := by
  induction w using reverseRecOn with
  | nil => rfl
  | append_singleton w c ih =>
    rw [afterAll_concat, ih, after, reverse_append, reverse_singleton,
      singleton_append, takeWhile_cons, count_append]
    by_cases hc : c = '\n'
    · simp [hc]
      omega
    · simp [hc]

namespace Piece

/-- The token that a piece becomes, if the parser gets to see it. -/
def token? (p : Piece) : Option Token :=
  match p.fate with
  | .token k => if k.isSkipped then none else some ⟨k, String.ofList p.text, p.pos⟩
  | .fault => none

/-- The error that is reported for a piece, if there is one. -/
def error? (p : Piece) : Option SyntaxError :=
  match p.fate with
  | .token _ => none
  | .fault => some ⟨p.pos, .unrecognized (String.ofList p.text)⟩

/-- A piece is what the lexical rules make of a text, from its front. -/
def Fits (p : Piece) (cs : List Char) : Prop :=
  match p.fate with
  | .token k => Lexer.Wins cs k p.text
  | .fault => Lexer.Stuck cs p.text

lemma Fits.ne_nil {p : Piece} {cs : List Char} (h : p.Fits cs) : p.text ≠ [] := by
  unfold Fits at h
  split at h
  · exact h.ne_nil
  · exact h.ne_nil

end Piece

/-- The text of several pieces. -/
def textOf (pieces : List Piece) : List Char := pieces.flatMap (·.text)

lemma textOf_cons (p : Piece) (pieces : List Piece) :
    textOf (p :: pieces) = p.text ++ textOf pieces :=
  flatMap_cons

variable {p : Piece} {rest : List Char}

lemma Piece.Fits.length_lt {cs : List Char} (h : p.Fits cs)
    (hspl : cs = p.text ++ rest) : rest.length < cs.length := by
  have hpos := length_pos_iff.2 h.ne_nil
  rw [hspl, length_append]
  omega

lemma cut_cons (pos : Pos) (c : Char) (cs : List Char) :
    ∃ fate w rest, c :: cs = w ++ rest ∧ (Piece.mk fate w pos).Fits (c :: cs) ∧
      cut pos (c :: cs) = ⟨fate, w, pos⟩ :: cut (pos.afterAll w) rest := by
  have htake : ∀ n, (c :: cs).take n ≠ [] → (c :: cs).take n = c :: cs.take (n - 1) ∧
      cs.drop (n - 1) = (c :: cs).drop n := by
    intro n hn
    cases n with
    | zero => exact absurd rfl hn
    | succ n => exact ⟨rfl, rfl⟩
  rw [cut]
  rcases hrace : Lexer.race lexicalRules none 0 (c :: cs) with ⟨_ | ⟨k, len⟩, seen⟩
  · have hstuck := Lexer.stuck_of_race (cons_ne_nil c cs) hrace
    obtain ⟨hhd, htail⟩ := htake seen hstuck.ne_nil
    refine ⟨.fault, (c :: cs).take seen, (c :: cs).drop seen, (take_append_drop _ _).symm,
      hstuck, ?_⟩
    rw [hhd, ← htail]
  · have hwins := Lexer.wins_of_race hrace
    obtain ⟨hhd, htail⟩ := htake len hwins.ne_nil
    refine ⟨.token k, (c :: cs).take len, (c :: cs).drop len, (take_append_drop _ _).symm,
      hwins, ?_⟩
    rw [hhd, ← htail]

lemma cut_nil (pos : Pos) : cut pos [] = [] := by
  rw [cut]

/-- The pieces of a text are the text, and each fits where it begins. -/
lemma cut_spec (pos : Pos) (cs : List Char) : textOf (cut pos cs) = cs ∧
      ∀ before p after, cut pos cs = before ++ p :: after →
        p.pos = pos.afterAll (textOf before) ∧ p.Fits (p.text ++ textOf after) := by
  induction h : cs.length using Nat.strongRecOn generalizing pos cs with
  | _ n ih =>
    cases cs with
    | nil =>
      rw [cut_nil]
      exact ⟨rfl, fun before p after h => by simp at h⟩
    | cons c cs =>
      obtain ⟨fate, w, rest, hspl, hft, hcut⟩ := cut_cons pos c cs
      have hlt : rest.length < n := h ▸ hft.length_lt hspl
      obtain ⟨htx, hpie⟩ := ih rest.length hlt (pos.afterAll w) rest rfl
      rw [hcut, textOf_cons, htx]
      refine ⟨hspl.symm, fun before p after hp => ?_⟩
      cases before with
      | nil =>
        obtain ⟨rfl, rfl⟩ := List.cons.inj hp
        refine ⟨rfl, ?_⟩
        rw [htx, ← hspl]
        exact hft
      | cons q before =>
        obtain ⟨rfl, hr⟩ := List.cons.inj hp
        rw [textOf_cons, Pos.afterAll_append]
        exact hpie before p after hr

lemma tokens_eq (source : String) : tokens source =
    (cut Pos.start source.toList).filterMap Piece.token? ++
      [⟨.endOfInput, "<EOF>", Pos.start.afterAll source.toList⟩] :=
  rfl

lemma lexicalErrors_eq (source : String) : lexicalErrors source =
    (cut Pos.start source.toList).filterMap Piece.error? := by
  rw [lexicalErrors, lexicalFaults]
  induction cut Pos.start source.toList with
  | nil => rfl
  | cons p pieces ih =>
    rw [filter_cons, filterMap_cons]
    cases hfate : p.fate with
    | token k => simp [Piece.error?, hfate, ih]
    | fault => simp [Piece.error?, hfate, ih]

/-- If a text begins with `/*` and is closed further on, its first piece is a
    comment up to there. -/
lemma Piece.Fits.eq_comment {inside : List Char}
    (h : p.Fits ('/' :: '*' :: inside ++ rest)) (hclo : Lexer.ClosedOnce inside) :
    p.fate = .token .blockComment ∧ p.text = '/' :: '*' :: inside := by
  have hspe := Lexer.spells_blockComment.2 ⟨inside, rfl, hclo⟩
  have hpre : '/' :: '*' :: inside <+: '/' :: '*' :: inside ++ rest := prefix_append _ _
  unfold Fits at h
  split at h
  · rename_i k hfate
    have hlong := h.longest _ _ hpre hspe
    obtain ⟨u, hu⟩ := prefix_of_prefix_length_le hpre h.begins hlong
    have hcom := h.spells
    rw [← hu] at hcom
    cases Lexer.eq_blockComment hcom
    obtain ⟨inside', hinside', hclosed'⟩ := Lexer.spells_blockComment.1 hcom
    have heq : inside ++ u = inside' := by simpa using hinside'
    cases hclo.eq_nil (heq ▸ hclosed')
    exact ⟨hfate, by rw [← hu, append_nil]⟩
  · exact absurd hspe (h.nothing _ _ hpre)

/-- Cutting a text gives pieces that are the text, put one behind the other. The tokens are those
    pieces that are neither blank nor a comment, with the end of the input behind them, and the
    errors those that no rule matches. A piece has the line and the column of its first character.
    Its kind is that of the longest match there, by the first rule that has it, and if no rule has
    one it is the shortest piece that no rule can begin with, or all that is left. A block comment
    ends at the first `*/` behind its beginning. -/
theorem lexing_partitions (source : String) : ∃ pieces : List Piece, textOf pieces = source.toList ∧
      tokens source = pieces.filterMap Piece.token? ++ [⟨.endOfInput, "<EOF>",
        ⟨1 + source.toList.count '\n', (source.toList.reverse.takeWhile (· != '\n')).length⟩⟩] ∧
      lexicalErrors source = pieces.filterMap Piece.error? ∧
      ∀ before p after, pieces = before ++ p :: after → p.pos = ⟨1 + (textOf before).count '\n',
          ((textOf before).reverse.takeWhile (· != '\n')).length⟩ ∧
        p.Fits (p.text ++ textOf after) ∧ (p.fate = .token .blockComment →
          ∃ inside, p.text = '/' :: '*' :: inside ∧ Lexer.ClosedOnce inside) ∧
        ∀ inside rest, p.text ++ textOf after = '/' :: '*' :: inside ++ rest →
          Lexer.ClosedOnce inside →
          p.fate = .token .blockComment ∧ p.text = '/' :: '*' :: inside := by
  obtain ⟨htx, hpie⟩ := cut_spec Pos.start source.toList
  refine ⟨cut Pos.start source.toList, htx, ?_, lexicalErrors_eq source, ?_⟩
  · rw [tokens_eq, Pos.afterAll_start]
  · intro before p after hp
    obtain ⟨hpos, hft⟩ := hpie before p after hp
    rw [Pos.afterAll_start] at hpos
    refine ⟨hpos, hft, fun hfate => ?_, fun inside rest hspl hclo => ?_⟩
    · unfold Piece.Fits at hft
      rw [hfate] at hft
      exact Lexer.spells_blockComment.1 hft.spells
    · rw [hspl] at hft
      exact hft.eq_comment hclo

end Compiscript
