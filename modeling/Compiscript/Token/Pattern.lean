/-!
# Patterns of Text

Regular patterns over characters, matched one character at a time.

`after c p` is the pattern for what may still follow once `p` has read `c`.
Reading a text is then a fold of `after`, a pattern has matched where it
`isDone`, and it can be given up as soon as it `isDead`. `after` builds with
`join` and `either`, which keep `never` at the top, so a pattern that no text
can complete any more is literally `never`.
-/

namespace Compiscript

/-- A regular pattern. -/
inductive Pattern where
  /-- Matches no text. -/
  | never
  /-- Matches the empty text only. -/
  | done
  /-- Matches one character of a class. -/
  | one (class? : Char → Bool)
  | seq (p q : Pattern)
  | alt (p q : Pattern)
  /-- Matches any number of texts of a pattern, one after the other. -/
  | many (p : Pattern)

namespace Pattern

/-- The texts a pattern stands for. -/
inductive Matches : Pattern → List Char → Prop where
  | done : Matches .done []
  | one {class? : Char → Bool} {c : Char} (h : class? c = true) : Matches (.one class?) [c]
  | seq {p q : Pattern} {u v : List Char} (hp : Matches p u) (hq : Matches q v) :
      Matches (.seq p q) (u ++ v)
  | left {p q : Pattern} {u : List Char} (h : Matches p u) : Matches (.alt p q) u
  | right {p q : Pattern} {u : List Char} (h : Matches q u) : Matches (.alt p q) u
  | stop {p : Pattern} : Matches (.many p) []
  | more {p : Pattern} {u v : List Char} (hp : Matches p u) (hv : Matches (.many p) v) :
      Matches (.many p) (u ++ v)

/-- Whether a pattern matches the empty text. -/
def isDone : Pattern → Bool
  | never => false
  | done => true
  | one _ => false
  | seq p q => p.isDone && q.isDone
  | alt p q => p.isDone || q.isDone
  | many _ => true

/-- Whether a pattern is the one that matches nothing. -/
def isDead : Pattern → Bool
  | never => true
  | _ => false

/-- One pattern after the other, `never` if either is. -/
def join : Pattern → Pattern → Pattern
  | never, _ => never
  | _, never => never
  | done, q => q
  | p, q => seq p q

/-- Either of two patterns, the other one if one is `never`. -/
def either : Pattern → Pattern → Pattern
  | never, q => q
  | p, never => p
  | p, q => alt p q

/-- What a pattern still has to match once it has read a character. -/
def after (c : Char) : Pattern → Pattern
  | never => never
  | done => never
  | one class? => if class? c then done else never
  | seq p q =>
    if p.isDone then ((p.after c).join q).either (q.after c) else (p.after c).join q
  | alt p q => (p.after c).either (q.after c)
  | many p => (p.after c).join (many p)

/-- The pattern of a single character. -/
def char (c : Char) : Pattern := one (· == c)

/-- The pattern of a single text. -/
def text (s : String) : Pattern := s.toList.foldr (fun c p => (char c).join p) done

/-- One or more texts of a pattern. -/
def some (p : Pattern) : Pattern := seq p (many p)

theorem matches_nil_iff (p : Pattern) : p.isDone = true ↔ p.Matches [] := by
  constructor
  · intro h
    induction p with
    | never => simp [isDone] at h
    | done => exact .done
    | one _ => simp [isDone] at h
    | seq p q ihp ihq =>
      simp only [isDone, Bool.and_eq_true] at h
      exact Matches.seq (ihp h.1) (ihq h.2)
    | alt p q ihp ihq =>
      simp only [isDone, Bool.or_eq_true] at h
      rcases h with h | h
      · exact .left (ihp h)
      · exact .right (ihq h)
    | many p => exact .stop
  · intro h
    generalize hw : ([] : List Char) = w at h
    induction h with
    | done => rfl
    | one _ => simp at hw
    | seq _ _ ihp ihq =>
      have hnil := List.append_eq_nil_iff.mp hw.symm
      simp [isDone, ihp hnil.1.symm, ihq hnil.2.symm]
    | left _ ih => simp [isDone, ih hw]
    | right _ ih => simp [isDone, ih hw]
    | stop => rfl
    | more _ _ _ _ => rfl

end Pattern

end Compiscript
