import Compiscript.Proofs.Token.Partition
import Mathlib.Data.List.Forall2
import Mathlib.Data.List.TakeWhile

/-!
# Faults Count as Blanks

A piece of the text that no lexical rule matches is set aside, and what is left
is cut as if there were blanks in its place.

Putting blanks there can only change the matches that look beyond their end.
-/

namespace Compiscript

open List

namespace Lexer

variable {u v w x cs rest : List Char} {c : Char} {j k : Kind}

/-! ### What texts begin with -/

lemma mem_kinds_of_spells (h : Spells k (u ++ v)) : k ∈ (readAll u lexicalRules).map (·.1) :=
  mem_map_of_mem (mem_readAll_of_spells h)

lemma isBlank_cases (h : isBlank c = true) : c = ' ' ∨ c = '\t' ∨ c = '\r' ∨ c = '\n' := by
  simpa [isBlank, or_assoc] using h

lemma eq_blank (hc : isBlank c = true) (h : Spells k (c :: w)) : k = .blank := by
  have hmem := mem_kinds_of_spells (u := [c]) h
  have hkds : (readAll [c] lexicalRules).map (·.1) = [.blank] := by
    rcases isBlank_cases hc with rfl | rfl | rfl | rfl <;> decide
  exact mem_singleton.1 (hkds ▸ hmem)

lemma spells_blank : Spells .blank w ↔ w ≠ [] ∧ ∀ c ∈ w, isBlank c = true := by
  have hseq : Spells .blank w ↔ (Pattern.seq (.one isBlank) (.many (.one isBlank))).Matches w :=
    Iff.rfl
  rw [hseq, Pattern.matches_seq]
  constructor
  · rintro ⟨u, v, rfl, hu, hv⟩
    obtain ⟨c, rfl, hc⟩ := Pattern.matches_one.1 hu
    rw [singleton_append, forall_mem_cons]
    exact ⟨cons_ne_nil _ _, hc, Pattern.matches_many_one.1 hv⟩
  · rintro ⟨hne, hall⟩
    cases w with
    | nil => exact absurd rfl hne
    | cons c w =>
      obtain ⟨hc, hw⟩ := forall_mem_cons.1 hall
      exact ⟨[c], w, rfl, .one hc, Pattern.matches_many_one.2 hw⟩

lemma spells_lineComment : Spells .lineComment w ↔
    ∃ inside, w = '/' :: '/' :: inside ∧ ∀ c ∈ inside, isLineEnd c = false := by
  have hseq : Spells .lineComment w ↔
      (Pattern.seq (.text "//") (.many (.one fun c => !isLineEnd c))).Matches w := Iff.rfl
  rw [hseq, Pattern.matches_seq]
  constructor
  · rintro ⟨u, v, rfl, hu, hv⟩
    cases Pattern.matches_text.1 hu
    exact ⟨v, rfl, fun c hc => by simpa using Pattern.matches_many_one.1 hv c hc⟩
  · rintro ⟨v, rfl, hv⟩
    exact ⟨['/', '/'], v, rfl, Pattern.matches_text.2 rfl,
      Pattern.matches_many_one.2 fun c hc => by simp [hv c hc]⟩

lemma exists_of_quote (h : Spells k ('"' :: w)) : ∃ body, w = body ++ ['"'] ∧ '"' ∉ body := by
  have hstr : stringPattern.Matches ('"' :: w) := by
    have hmem := mem_kinds_of_spells (u := ['"']) h
    have hkds : (readAll ['"'] lexicalRules).map (·.1) = [.literal, .stringLiteral] := by decide
    rw [hkds] at hmem
    rcases mem_cons.1 hmem with rfl | hmem
    · rcases Pattern.matches_alt.1 h with hint | hstr
      · have hnever : integerPattern.after '"' = .never := rfl
        rw [← Pattern.matches_after, hnever] at hint
        exact absurd hint Pattern.matches_never
      · exact hstr
    · cases mem_singleton.1 hmem
      exact h
  obtain ⟨u, v, huv, hu, hv⟩ := Pattern.matches_seq.1 hstr
  obtain ⟨c, rfl, -⟩ := Pattern.matches_one.1 hu
  obtain ⟨body, q, rfl, hbd, hq⟩ := Pattern.matches_seq.1 hv
  obtain ⟨d, rfl, hd⟩ := Pattern.matches_one.1 hq
  obtain rfl : d = '"' := eq_of_beq hd
  refine ⟨body, (cons.inj huv).2, fun hmem => ?_⟩
  have := Pattern.matches_many_one.1 hbd _ hmem
  simp at this

lemma not_isBlank {class? : Char → Bool} (hcl : ∀ c, isBlank c = true → class? c = false)
    (h : class? c = true) : isBlank c = false := by
  by_contra hblank
  rw [Bool.not_eq_false] at hblank
  rw [hcl c hblank] at h
  cases h

lemma not_isBlank_of_spells (h : Spells k w) (hqt : w.head? ≠ some '"') (hblank : k ≠ .blank)
    (hline : k ≠ .lineComment) (hblk : k ≠ .blockComment) : ∀ c ∈ w, isBlank c = false := by
  have hdigit : ∀ c, isBlank c = true → c.isDigit = false := by
    intro c hc
    rcases isBlank_cases hc with rfl | rfl | rfl | rfl <;> rfl
  have hinte : integerPattern.Matches w → ∀ c ∈ w, isBlank c = false := by
    intro hint c hc
    obtain ⟨u, v, rfl, hu, hv⟩ := Pattern.matches_seq.1 hint
    obtain ⟨d, rfl, hd⟩ := Pattern.matches_one.1 hu
    rcases mem_cons.1 hc with rfl | hc
    · exact not_isBlank hdigit hd
    · exact not_isBlank hdigit (Pattern.matches_many_one.1 hv c hc)
  have hstr : ¬stringPattern.Matches w := by
    intro hstr
    obtain ⟨u, v, rfl, hu, -⟩ := Pattern.matches_seq.1 hstr
    obtain ⟨d, rfl, hd⟩ := Pattern.matches_one.1 hu
    exact hqt (congrArg some (eq_of_beq hd))
  cases hs : k.spelling? with
  | some s =>
    have hpat : patternOf k = .text s := by
      unfold patternOf
      split <;> first | cases hs | (rw [hs]; rfl)
    have hall : (Kind.all.all fun k => (k.spelling?.getD "").toList.all (!isBlank ·)) = true := by
      decide
    have hk := all_eq_true.1 hall k (Kind.mem_all k)
    rw [Spells, hpat, Pattern.matches_text] at h
    rw [hs, Option.getD_some, ← h, all_eq_true] at hk
    exact fun c hc => by simpa using hk c hc
  | none =>
    cases k with
    | endOfInput => exact absurd h Pattern.matches_never
    | literal => exact hinte ((Pattern.matches_alt.1 h).resolve_right hstr)
    | integerLiteral => exact hinte h
    | stringLiteral => exact absurd h hstr
    | identifier =>
      have hst : ∀ c, isBlank c = true → isNameStart c = false := by
        intro c hc
        rcases isBlank_cases hc with rfl | rfl | rfl | rfl <;> rfl
      have hr : ∀ c, isBlank c = true → isNameRest c = false := by
        intro c hc
        rcases isBlank_cases hc with rfl | rfl | rfl | rfl <;> rfl
      obtain ⟨u, v, rfl, hu, hv⟩ := Pattern.matches_seq.1 h
      obtain ⟨d, rfl, hd⟩ := Pattern.matches_one.1 hu
      intro c hc
      rcases mem_cons.1 hc with rfl | hc
      · exact not_isBlank hst hd
      · exact not_isBlank hr (Pattern.matches_many_one.1 hv c hc)
    | blank => exact absurd rfl hblank
    | lineComment => exact absurd rfl hline
    | blockComment => exact absurd rfl hblk
    | _ => cases hs

/-! ### The longest match -/

/-- There is one longest match at most. -/
lemma Wins.unique (h : Wins cs k w) (h' : Wins cs j x) : k = j ∧ w = x := by
  have hlen : w.length = x.length :=
    Nat.le_antisymm (h'.longest k w h.begins h.spells) (h.longest j x h'.begins h'.spells)
  obtain rfl : w = x :=
    (prefix_of_prefix_length_le h.begins h'.begins (Nat.le_of_eq hlen)).eq_of_length hlen
  have hidx := Nat.le_antisymm (h.earliest j h'.spells) (h'.earliest k h.spells)
  have hall : ∀ k : Kind, Kind.all[k.index]? = some k := by
    intro k
    cases k <;> rfl
  exact ⟨Option.some.inj ((hall k).symm.trans (hidx ▸ hall j)), rfl⟩

/-- Where there is a match there is no fault. -/
lemma Wins.not_stuck (h : Wins cs k w) : ¬Stuck cs x :=
  fun hstuck => hstuck.nothing k w h.begins h.spells

end Lexer

open Lexer in
lemma cut_of_wins {k : Kind} {w rest : List Char} (h : Wins (w ++ rest) k w) (pos : Pos) :
    cut pos (w ++ rest) = ⟨.token k, w, pos⟩ :: cut (pos.afterAll w) rest := by
  cases w with
  | nil => exact absurd rfl h.ne_nil
  | cons c w =>
    obtain ⟨fate, x, rest', hspl, hft, hcut⟩ := cut_cons pos c (w ++ rest)
    rw [cons_append, hcut]
    cases fate with
    | token j =>
      obtain ⟨rfl, rfl⟩ := h.unique hft
      have hspl : (c :: w) ++ rest = (c :: w) ++ rest' := hspl
      rw [append_cancel_left hspl]
    | fault => exact absurd hft h.not_stuck

open Lexer in
lemma cut_blanks {u : List Char} (hu : ∀ c ∈ u, isBlank c = true) (pos : Pos) (rest : List Char) :
    ((cut pos (u ++ rest)).filterMap Piece.token? =
        (cut (pos.afterAll u) rest).filterMap Piece.token?) ∧
      (cut pos (u ++ rest)).filterMap Piece.error? =
        (cut (pos.afterAll u) rest).filterMap Piece.error? := by
  -- All blanks in front of something else are one piece, which is skipped.
  have hrun : ∀ (pos : Pos) (w : List Char), (∀ c ∈ w, isBlank c = true) →
      ((cut pos (w ++ rest.dropWhile isBlank)).filterMap Piece.token? =
          (cut (pos.afterAll w) (rest.dropWhile isBlank)).filterMap Piece.token?) ∧
        (cut pos (w ++ rest.dropWhile isBlank)).filterMap Piece.error? =
          (cut (pos.afterAll w) (rest.dropWhile isBlank)).filterMap Piece.error? := by
    intro pos w hw
    cases w with
    | nil => exact ⟨rfl, rfl⟩
    | cons c w =>
      have hspe : Spells .blank (c :: w) := spells_blank.2 ⟨cons_ne_nil _ _, hw⟩
      have hbeg : ∀ j v, v <+: c :: w ++ rest.dropWhile isBlank → Spells j v → j = .blank := by
        intro j v hv hj
        obtain ⟨v', rfl, -⟩ := prefix_cons_cases hv fun hnil => not_spells_nil j (hnil ▸ hj)
        exact eq_blank (hw c (.head _)) hj
      have hwins : Wins (c :: w ++ rest.dropWhile isBlank) .blank (c :: w) := by
        refine ⟨prefix_append _ _, cons_ne_nil _ _, hspe, fun j hj => ?_, ?_⟩
        · exact Nat.le_of_eq (congrArg Kind.index (hbeg j _ (prefix_append _ _) hj).symm)
        · intro j v hv hj
          cases hbeg j v hv hj
          by_contra hlt
          obtain ⟨y, rfl⟩ :=
            prefix_of_prefix_length_le (prefix_append (c :: w) _) hv (by omega)
          have hy : y <+: rest.dropWhile isBlank := (prefix_append_right_inj _).1 hv
          cases y with
          | nil => simp at hlt
          | cons d y =>
            obtain ⟨z, hz⟩ := hy
            have hd := (spells_blank.1 hj).2 d (by simp)
            have hhd := head?_dropWhile_not isBlank rest
            rw [← hz] at hhd
            simp [hd] at hhd
      rw [cut_of_wins hwins]
      exact ⟨rfl, rfl⟩
  have htake : ∀ c ∈ rest.takeWhile isBlank, isBlank c = true := fun c hc =>
    mem_takeWhile_imp hc
  have hspl : rest = rest.takeWhile isBlank ++ rest.dropWhile isBlank :=
    takeWhile_append_dropWhile.symm
  obtain ⟨htoks, her⟩ := hrun pos (u ++ rest.takeWhile isBlank) fun c hc => by
    rcases mem_append.1 hc with hc | hc
    · exact hu c hc
    · exact htake c hc
  obtain ⟨htokens', herrors'⟩ := hrun (pos.afterAll u) (rest.takeWhile isBlank) htake
  rw [append_assoc, ← hspl] at htoks her
  rw [← hspl] at htokens' herrors'
  rw [Pos.afterAll_append] at htoks her
  exact ⟨htoks.trans htokens'.symm, her.trans herrors'.symm⟩

/-! ### Blanks for faults -/

/-- A blank in the place of a character, on the same line. -/
def blankFor (c : Char) : Char := if c = '\n' then '\n' else ' '

/-- The text of a piece, with blanks for a fault. -/
def Piece.blanked (p : Piece) : List Char :=
  match p.fate with
  | .token _ => p.text
  | .fault => p.text.map blankFor

/-- A source text with blanks for its faults. -/
def blanked (source : String) : String :=
  String.ofList ((cut Pos.start source.toList).flatMap Piece.blanked)

lemma isBlank_blankFor (c : Char) : Lexer.isBlank (blankFor c) = true := by
  unfold blankFor
  split <;> rfl

lemma afterAll_map_blankFor (pos : Pos) (w : List Char) :
    pos.afterAll (w.map blankFor) = pos.afterAll w := by
  induction w generalizing pos with
  | nil => rfl
  | cons c w ih =>
    have hafter : pos.after (blankFor c) = pos.after c := by
      by_cases hc : c = '\n' <;> simp [Pos.after, blankFor, hc]
    rw [map_cons, Pos.afterAll, foldl_cons, hafter]
    exact ih (pos.after c)

/-- A text with blanks for some of its characters. -/
def Softer (cs cs' : List Char) : Prop :=
  Forall₂ (fun c c' => c' = c ∨ Lexer.isBlank c' = true) cs cs'

namespace Softer

lemma refl (cs : List Char) : Softer cs cs := forall₂_same.2 fun _ _ => .inl rfl

lemma map_blankFor (cs : List Char) : Softer cs (cs.map blankFor) := by
  induction cs with
  | nil => exact .nil
  | cons c cs ih => exact .cons (.inr (isBlank_blankFor c)) ih

lemma append {a a' b b' : List Char} (ha : Softer a a') (hb : Softer b b') :
    Softer (a ++ b) (a' ++ b') :=
  rel_append ha hb

lemma of_prefix {cs cs' v' : List Char} (h : Softer cs cs') (hv : v' <+: cs') :
    ∃ v, v <+: cs ∧ Softer v v' := by
  obtain ⟨rest, rfl⟩ := hv
  refine ⟨cs.take v'.length, take_prefix _ _, ?_⟩
  have htake := forall₂_take v'.length h
  rwa [take_left] at htake

lemma eq_of_not_isBlank {v v' : List Char} (h : Softer v v')
    (hv : ∀ c ∈ v', Lexer.isBlank c = false) : v' = v := by
  induction h with
  | nil => rfl
  | @cons c c' v v' hc _ ih =>
    obtain ⟨hc', hv'⟩ := forall_mem_cons.1 hv
    rw [ih hv', hc.resolve_right (by simp [hc'])]

end Softer

lemma softer_blanked (p : Piece) : Softer p.text p.blanked := by
  unfold Piece.blanked
  split
  · exact .refl _
  · exact .map_blankFor _

lemma softer_flatMap (pieces : List Piece) :
    Softer (textOf pieces) (pieces.flatMap Piece.blanked) := by
  induction pieces with
  | nil => exact .nil
  | cons p pieces ih =>
    rw [textOf_cons, flatMap_cons]
    exact (softer_blanked p).append ih

/-- A fault does not begin with a blank, so no blank at the front of a text is new. -/
lemma isBlank_of_head {pos : Pos} {cs cs' : List Char} {c c' : Char}
    (h : (cut pos (c :: cs)).flatMap Piece.blanked = c' :: cs') :
    c' = c ∨ Lexer.isBlank c = false := by
  obtain ⟨fate, w, rest, hspl, hft, hcut⟩ := cut_cons pos c cs
  rw [hcut, flatMap_cons] at h
  cases w with
  | nil => exact absurd rfl hft.ne_nil
  | cons d w =>
    obtain ⟨rfl, -⟩ := cons.inj hspl
    cases fate with
    | token k => exact .inl (cons.inj h).1.symm
    | fault =>
      refine .inr ?_
      by_contra hblank
      rw [Bool.not_eq_false] at hblank
      refine hft.nothing .blank [c] (by simp) (Lexer.spells_blank.2 ⟨by simp, ?_⟩)
      simpa using hblank

namespace Lexer

lemma exists_closedOnce_of_infix {w : List Char} (h : ['*', '/'] <:+: w) :
    ∃ y, y <+: w ∧ ClosedOnce y := by
  induction w with
  | nil => simp at h
  | cons c w ih =>
    rcases infix_cons_iff.1 h with hpre | hin
    · exact ⟨['*', '/'], hpre, closedOnce_slash.2 rfl⟩
    · by_cases hhere : c = '*' ∧ w.head? = some '/'
      · obtain ⟨rfl, hhd⟩ := hhere
        obtain ⟨w, rfl⟩ := head?_eq_some_iff.1 hhd
        exact ⟨['*', '/'], ⟨w, rfl⟩, closedOnce_slash.2 rfl⟩
      · obtain ⟨y, hy, hclo⟩ := ih hin
        refine ⟨c :: y, cons_prefix_cons.2 ⟨rfl, hy⟩, (closedOnce_cons ?_).2 hclo⟩
        rintro ⟨rfl, hhd⟩
        obtain ⟨y', rfl⟩ := head?_eq_some_iff.1 hhd
        obtain ⟨z, rfl⟩ := hy
        exact hhere ⟨rfl, rfl⟩

lemma exists_closedOnce {v v' : List Char} (h : Softer v v') (hclo : ClosedOnce v') :
    ∃ y, y <+: v ∧ ClosedOnce y := by
  obtain ⟨body, rfl, -⟩ := hclo
  refine exists_closedOnce_of_infix ?_
  have hdrop := forall₂_drop body.length h
  rw [drop_left] at hdrop
  have hsm : ['*', '/'] = v.drop body.length :=
    Softer.eq_of_not_isBlank hdrop (forall_mem_cons.2 ⟨rfl, forall_mem_singleton.2 rfl⟩)
  exact hsm ▸ (drop_suffix _ _).isInfix

/-- A match stays the longest one if some of what comes behind it becomes blank,
    unless it is blank itself. -/
lemma Wins.of_softer {k : Kind} {w rest rest' : List Char} (h : Wins (w ++ rest) k w)
    (hk : k ≠ .blank) (hsof : Softer rest rest')
    (hhd : ∀ c c', rest.head? = some c → rest'.head? = some c' → c' = c ∨ isBlank c = false) :
    Wins (w ++ rest') k w := by
  refine ⟨prefix_append _ _, h.ne_nil, h.spells, h.earliest, fun j x hx hj => ?_⟩
  by_contra hlt
  obtain ⟨v', rfl⟩ := prefix_of_prefix_length_le (prefix_append w _) hx (by omega)
  have hne : v' ≠ [] := by
    rintro rfl
    simp at hlt
  have hv' : v' <+: rest' := (prefix_append_right_inj _).1 hx
  obtain ⟨v, hv, hvv'⟩ := hsof.of_prefix hv'
  -- What matches further on in the text itself is in the way of the match.
  have hno : ∀ i y, y <+: rest → y ≠ [] → ¬Spells i (w ++ y) := by
    intro i y hy hy' hi
    have hlong := h.longest i _ ((prefix_append_right_inj w).2 hy) hi
    rw [length_append] at hlong
    have := length_pos_iff.2 hy'
    omega
  have hvne : v ≠ [] := by
    rintro rfl
    exact hne (forall₂_nil_left_iff.1 hvv')
  obtain ⟨c, w, rfl⟩ := exists_cons_of_ne_nil h.ne_nil
  by_cases hqt : c = '"'
  · -- A string is complete.
    subst hqt
    obtain ⟨body, rfl, -⟩ := exists_of_quote h.spells
    obtain ⟨body', hbody', hnot⟩ := exists_of_quote hj
    refine hnot ?_
    obtain ⟨z, d, rfl⟩ := (eq_nil_or_concat v').resolve_left hne
    have hspl : (body ++ ['"'] ++ z) ++ [d] = body' ++ ['"'] := by simpa using hbody'
    rw [← (append_inj' hspl rfl).1]
    simp
  by_cases hpl : j ≠ .blank ∧ j ≠ .lineComment ∧ j ≠ .blockComment
  · -- No blanks: the text itself has the longer match.
    have hblank := not_isBlank_of_spells hj (by simpa using hqt) hpl.1 hpl.2.1 hpl.2.2
    have hsm := hvv'.eq_of_not_isBlank fun d hd => hblank d (mem_append_right _ hd)
    exact hno j v hv hvne (hsm ▸ hj)
  obtain ⟨d', v', rfl⟩ := exists_cons_of_ne_nil hne
  obtain ⟨d, v, rfl⟩ := exists_cons_of_ne_nil hvne
  obtain ⟨hd, htail⟩ := forall₂_cons.1 hvv'
  by_cases hj' : j = .blank
  · subst hj'
    exact hk (eq_blank ((spells_blank.1 hj).2 c (.head _)) h.spells)
  by_cases hj'' : j = .lineComment
  · subst hj''
    obtain ⟨inside, heq, hall⟩ := spells_lineComment.1 hj
    obtain ⟨rfl, hins⟩ := cons.inj heq
    cases w with
    | nil =>
      -- The second slash is not new.
      obtain rfl : d' = '/' := (cons.inj hins).1
      cases hd.resolve_right (by decide)
      refine hno .lineComment ['/'] (IsPrefix.trans ⟨v, rfl⟩ hv) (by simp) ?_
      exact spells_lineComment.2 ⟨[], rfl, by simp⟩
    | cons e w =>
      -- The comment would have gone on into whatever stands behind it.
      obtain rfl : e = '/' := (cons.inj hins).1
      obtain rfl : w ++ d' :: v' = inside := (cons.inj hins).2
      have hd' := hall d' (by simp)
      have hend : isLineEnd d = false := by
        obtain ⟨y, hy⟩ := hv
        obtain ⟨y', hy'⟩ := hv'
        rcases hhd d d' (by rw [← hy]; rfl) (by rw [← hy']; rfl) with rfl | hblank
        · exact hd'
        · rw [isBlank, Bool.or_eq_false_iff, Bool.or_eq_false_iff] at hblank
          rw [isLineEnd, hblank.2, hblank.1.2]
          rfl
      refine hno .lineComment [d] (IsPrefix.trans ⟨v, rfl⟩ hv) (by simp) ?_
      refine spells_lineComment.2 ⟨w ++ [d], rfl, fun a ha => ?_⟩
      rcases mem_append.1 ha with ha | ha
      · exact hall a (mem_append_left _ ha)
      · exact mem_singleton.1 ha ▸ hend
  · obtain rfl : j = .blockComment := by
      by_contra hno
      exact hpl ⟨hj', hj'', hno⟩
    obtain ⟨inside, heq, hclo⟩ := spells_blockComment.1 hj
    obtain ⟨rfl, hins⟩ := cons.inj heq
    cases w with
    | nil =>
      -- The end of the comment is not new, so there is a comment in the text itself.
      obtain rfl : d' = '*' := (cons.inj hins).1
      obtain rfl : v' = inside := (cons.inj hins).2
      cases hd.resolve_right (by decide)
      obtain ⟨y, hy, hy'⟩ := exists_closedOnce htail hclo
      refine hno .blockComment ('*' :: y) ?_ (by simp) (spells_blockComment.2 ⟨y, rfl, hy'⟩)
      exact IsPrefix.trans (cons_prefix_cons.2 ⟨rfl, hy⟩) hv
    | cons e w =>
      -- The comment is complete.
      obtain rfl : e = '*' := (cons.inj hins).1
      obtain rfl : w ++ d' :: v' = inside := (cons.inj hins).2
      cases eq_blockComment h.spells
      obtain ⟨inside, heq', hclosed'⟩ := spells_blockComment.1 h.spells
      obtain rfl : w = inside := by simpa using heq'
      exact cons_ne_nil _ _ (hclosed'.eq_nil hclo)

end Lexer

/-- With blanks for its faults a text has the same tokens, in the same places, and no fault. -/
lemma cut_blanked (pos : Pos) (cs : List Char) :
    ((cut pos ((cut pos cs).flatMap Piece.blanked)).filterMap Piece.token? =
        (cut pos cs).filterMap Piece.token?) ∧
      (cut pos ((cut pos cs).flatMap Piece.blanked)).filterMap Piece.error? = [] := by
  induction h : cs.length using Nat.strongRecOn generalizing pos cs with
  | _ n ih =>
    cases cs with
    | nil =>
      rw [cut_nil, flatMap_nil, cut_nil]
      exact ⟨rfl, rfl⟩
    | cons c cs =>
      obtain ⟨fate, w, rest, hspl, hft, hcut⟩ := cut_cons pos c cs
      have hlt : rest.length < n := h ▸ hft.length_lt hspl
      obtain ⟨htoks, her⟩ := ih rest.length hlt (pos.afterAll w) rest rfl
      rw [hcut, flatMap_cons, filterMap_cons]
      cases fate with
      | fault =>
        have hbla := cut_blanks (u := w.map blankFor)
          (by simp [isBlank_blankFor]) pos
          ((cut (pos.afterAll w) rest).flatMap Piece.blanked)
        rw [afterAll_map_blankFor] at hbla
        exact ⟨hbla.1.trans htoks, hbla.2.trans her⟩
      | token k =>
        by_cases hk : k = .blank
        · subst hk
          have hbla := cut_blanks (Lexer.spells_blank.1 hft.spells).2 pos
            ((cut (pos.afterAll w) rest).flatMap Piece.blanked)
          exact ⟨hbla.1.trans htoks, hbla.2.trans her⟩
        · have hsof := softer_flatMap (cut (pos.afterAll w) rest)
          rw [(cut_spec (pos.afterAll w) rest).1] at hsof
          have hwins : Lexer.Wins (w ++ rest) k w := hspl ▸ hft
          have hwins' := hwins.of_softer hk hsof fun d d' hd hd' => by
            obtain ⟨rest, rfl⟩ := head?_eq_some_iff.1 hd
            obtain ⟨rest', hrest'⟩ := head?_eq_some_iff.1 hd'
            exact isBlank_of_head hrest'
          rw [Piece.blanked, cut_of_wins hwins', filterMap_cons, htoks,
            filterMap_cons, her]
          exact ⟨rfl, rfl⟩

lemma afterAll_blanked (pos : Pos) (pieces : List Piece) :
    pos.afterAll (pieces.flatMap Piece.blanked) = pos.afterAll (textOf pieces) := by
  induction pieces generalizing pos with
  | nil => rfl
  | cons p pieces ih =>
    rw [flatMap_cons, textOf_cons, Pos.afterAll_append, Pos.afterAll_append, ih]
    unfold Piece.blanked
    split
    · rfl
    · rw [afterAll_map_blankFor]

lemma tokens_blanked (source : String) : tokens (blanked source) = tokens source := by
  rw [tokens_eq, tokens_eq, blanked, String.toList_ofList,
    (cut_blanked Pos.start source.toList).1, afterAll_blanked,
    (cut_spec Pos.start source.toList).1]

lemma lexicalErrors_blanked (source : String) : lexicalErrors (blanked source) = [] := by
  rw [lexicalErrors_eq, blanked, String.toList_ofList]
  exact (cut_blanked Pos.start source.toList).2

end Compiscript
