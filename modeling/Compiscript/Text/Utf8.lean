/-!
# Decoding Text

Text from bytes, either as UTF-8 or with one character per byte.

A sequence of UTF-8 starts with a byte that says how long it is. The second
byte is confined further for some of the first ones, so that no character has
two encodings and none lies outside the range of characters. Decoding stops at
the first sequence that is wrong, and tells what is wrong and how many of its
bytes were read before that was clear.
-/

namespace Compiscript.Utf8

/-- What is wrong with a sequence. -/
inductive Cause where
  /-- No sequence starts with this byte. -/
  | badStart
  /-- A byte does not continue the sequence. -/
  | badContinuation
  /-- The bytes end before the sequence does. -/
  | unfinished
deriving DecidableEq, Repr, Inhabited

/-- A wrong sequence: its first byte, its place and the place behind the bytes
    that were read of it. -/
structure Fault where
  cause : Cause
  first : Nat
  start : Nat
  stop : Nat
deriving DecidableEq, Repr, Inhabited

/-- The length of a sequence by its first byte, and the range of the second
    one. -/
def shape? (first : Nat) : Option (Nat × Nat × Nat) :=
  if first < 0x80 then some (1, 0, 0)
  else if first < 0xC2 then none
  else if first < 0xE0 then some (2, 0x80, 0xBF)
  else if first = 0xE0 then some (3, 0xA0, 0xBF)
  else if first = 0xED then some (3, 0x80, 0x9F)
  else if first < 0xF0 then some (3, 0x80, 0xBF)
  else if first = 0xF0 then some (4, 0x90, 0xBF)
  else if first < 0xF4 then some (4, 0x80, 0xBF)
  else if first = 0xF4 then some (4, 0x80, 0x8F)
  else none

/-- The bits of the first byte that belong to the character. -/
def leadingBits (length first : Nat) : Nat :=
  match length with
  | 1 => first
  | 2 => first % 0x20
  | 3 => first % 0x10
  | _ => first % 0x08

/-- Read `missing` more bytes, the next of which lies between `lo` and `hi`.
    `code` is the character as far as it was read, and `seen` counts the bytes
    of the sequence so far. The result is the character, or what is wrong and
    how many bytes were read. -/
def continuation (code seen lo hi : Nat) :
    (missing : Nat) → List UInt8 → Except (Cause × Nat) (Nat × List UInt8)
  | 0, bytes => .ok (code, bytes)
  | _ + 1, [] => .error (.unfinished, seen)
  | missing + 1, b :: rest =>
    if lo ≤ b.toNat && b.toNat ≤ hi then
      continuation (code * 0x40 + b.toNat % 0x40) (seen + 1) 0x80 0xBF missing rest
    else .error (.badContinuation, seen)

theorem length_of_continuation {code seen lo hi missing : Nat} {bytes rest : List UInt8} {c : Nat}
    (h : continuation code seen lo hi missing bytes = .ok (c, rest)) :
    rest.length ≤ bytes.length := by
  induction missing generalizing code seen lo hi bytes with
  | zero =>
    simp only [continuation, Except.ok.injEq, Prod.mk.injEq] at h
    simp [h.2]
  | succ n ih =>
    cases bytes with
    | nil => simp [continuation] at h
    | cons b bs =>
      simp only [continuation] at h
      split at h
      · have := ih h
        simp only [List.length_cons]
        omega
      · simp at h

/-- Read the character of a sequence. -/
def sequence (first : UInt8) (bytes : List UInt8) : Except (Cause × Nat) (Nat × List UInt8) :=
  match shape? first.toNat with
  | none => .error (.badStart, 1)
  | some (length, lo, hi) =>
    continuation (leadingBits length first.toNat) 1 lo hi (length - 1) bytes

theorem length_of_sequence {first : UInt8} {bytes rest : List UInt8} {c : Nat}
    (h : sequence first bytes = .ok (c, rest)) : rest.length ≤ bytes.length := by
  simp only [sequence] at h
  split at h
  · simp at h
  · exact length_of_continuation h

/-- The characters of bytes, the first of which stands at place `start`. -/
def characters (start : Nat) (bytes : List UInt8) : Except Fault (List Char) :=
  match bytes with
  | [] => .ok []
  | first :: rest =>
    match h : sequence first rest with
    | .error (cause, seen) => .error ⟨cause, first.toNat, start, start + seen⟩
    | .ok (code, rest') => do
      have := length_of_sequence h
      return .ofNat code :: (← characters (start + 1 + (rest.length - rest'.length)) rest')
termination_by bytes.length
decreasing_by simp only [List.length_cons]; omega

/-- The text of a list of bytes. -/
def decode (bytes : List UInt8) : Except Fault String :=
  (characters 0 bytes).map String.ofList

/-- The text of a list of bytes, with one character per byte if they are not
    UTF-8. -/
def decodeLoosely (bytes : List UInt8) : String :=
  match decode bytes with
  | .ok s => s
  | .error _ => String.ofList (bytes.map fun b => .ofNat b.toNat)

end Compiscript.Utf8
