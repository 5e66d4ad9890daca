import Compiscript.Command.Check
import Compiscript.Command.Compile
import Compiscript.Proofs.Token.Blanking

/-!
# What the Commands Make of Faults

The commands see the tokens of a file and nothing else of it. Pieces that no
lexical rule matches are dropped on the way without a word.

## Theorems

* `faults_count_as_blanks`: A file with such pieces gets the very report that it gets
  with blanks in their place.
-/

namespace Compiscript

open List

namespace Utf8

/-- The bytes of a character, given by its number. -/
def encodeChar (n : Nat) : List UInt8 :=
  if n < 0x80 then [.ofNat n]
  else if n < 0x800 then [.ofNat (0xC0 + n / 0x40), .ofNat (0x80 + n % 0x40)]
  else if n < 0x10000 then
    [.ofNat (0xE0 + n / 0x1000), .ofNat (0x80 + n / 0x40 % 0x40), .ofNat (0x80 + n % 0x40)]
  else
    [.ofNat (0xF0 + n / 0x40000), .ofNat (0x80 + n / 0x1000 % 0x40),
      .ofNat (0x80 + n / 0x40 % 0x40), .ofNat (0x80 + n % 0x40)]

/-- The bytes of a text. -/
def encode (s : String) : List UInt8 := s.toList.flatMap fun c => encodeChar c.toNat

variable {b lo hi first n : Nat}

lemma toNat_ofNat (hb : b < 256) : (UInt8.ofNat b).toNat = b := by
  rw [UInt8.toNat_ofNat']
  exact Nat.mod_eq_of_lt hb

lemma continuation_cons {code seen missing : Nat} {rest : List UInt8} (hb : b < 256)
    (hlo : lo ≤ b) (hhi : b ≤ hi) : continuation code seen lo hi (missing + 1) (.ofNat b :: rest) =
      continuation (code * 0x40 + b % 0x40) (seen + 1) 0x80 0xBF missing rest := by
  rw [continuation, toNat_ofNat hb, if_pos (by simp [hlo, hhi])]

lemma sequence_eq {length : Nat} {bytes : List UInt8} (hf : first < 256)
    (hshape : shape? first = some (length, lo, hi)) : sequence (.ofNat first) bytes =
      continuation (leadingBits length first) 1 lo hi (length - 1) bytes := by
  rw [sequence, toNat_ofNat hf, hshape]

lemma shape?_two (hlo : 0xC2 ≤ first) (hhi : first < 0xE0) :
    shape? first = some (2, 0x80, 0xBF) := by
  rw [shape?, if_neg (by omega), if_neg (by omega), if_pos hhi]

lemma shape?_three (hlo : 0x800 ≤ n) (hhi : n < 0x10000) (hvalid : n < 0xD800 ∨ 0xDFFF < n) :
    ∃ lo hi, shape? (0xE0 + n / 0x1000) = some (3, lo, hi) ∧ lo ≤ 0x80 + n / 0x40 % 0x40 ∧
      0x80 + n / 0x40 % 0x40 ≤ hi := by
  by_cases hf : n / 0x1000 = 0
  · rw [hf]
    exact ⟨_, _, rfl, by omega, by omega⟩
  by_cases hla : n / 0x1000 = 13
  · rw [hla]
    exact ⟨_, _, rfl, by omega, by omega⟩
  · rw [shape?, if_neg (by omega), if_neg (by omega), if_neg (by omega), if_neg (by omega),
      if_neg (by omega), if_pos (by omega)]
    exact ⟨_, _, rfl, by omega, by omega⟩

lemma shape?_four (hlo : 0x10000 ≤ n) (hhi : n < 0x110000) :
    ∃ lo hi, shape? (0xF0 + n / 0x40000) = some (4, lo, hi) ∧ lo ≤ 0x80 + n / 0x1000 % 0x40 ∧
      0x80 + n / 0x1000 % 0x40 ≤ hi := by
  by_cases hf : n / 0x40000 = 0
  · rw [hf]
    exact ⟨_, _, rfl, by omega, by omega⟩
  by_cases hla : n / 0x40000 = 4
  · rw [hla]
    exact ⟨_, _, rfl, by omega, by omega⟩
  · rw [shape?, if_neg (by omega), if_neg (by omega), if_neg (by omega), if_neg (by omega),
      if_neg (by omega), if_neg (by omega), if_neg (by omega), if_pos (by omega)]
    exact ⟨_, _, rfl, by omega, by omega⟩

lemma sequence_encodeChar (hvalid : n.isValidChar) (rest : List UInt8) :
    ∃ first tail, encodeChar n = first :: tail ∧ sequence first (tail ++ rest) = .ok (n, rest) := by
  have hrange : (n < 0xD800 ∨ 0xDFFF < n) ∧ n < 0x110000 := by
    unfold Nat.isValidChar at hvalid
    omega
  obtain ⟨hvalid, hlt⟩ := hrange
  by_cases h1 : n < 0x80
  · rw [encodeChar, if_pos h1]
    refine ⟨_, _, rfl, ?_⟩
    rw [sequence_eq (by omega) (by rw [shape?, if_pos h1])]
    rfl
  by_cases h2 : n < 0x800
  · rw [encodeChar, if_neg h1, if_pos h2]
    refine ⟨_, _, rfl, ?_⟩
    rw [sequence_eq (by omega) (shape?_two (by omega) (by omega)), cons_append,
      continuation_cons (by omega) (by omega) (by omega)]
    simp only [continuation, leadingBits, nil_append, Except.ok.injEq, Prod.mk.injEq, and_true]
    omega
  by_cases h3 : n < 0x10000
  · rw [encodeChar, if_neg h1, if_neg h2, if_pos h3]
    obtain ⟨lo, hi, hshape, hlo, hhi⟩ := shape?_three (by omega) h3 hvalid
    refine ⟨_, _, rfl, ?_⟩
    rw [sequence_eq (by omega) hshape, cons_append,
      continuation_cons (by omega) hlo hhi, cons_append,
      continuation_cons (by omega) (by omega) (by omega)]
    simp only [continuation, leadingBits, nil_append, Except.ok.injEq, Prod.mk.injEq, and_true]
    omega
  · rw [encodeChar, if_neg h1, if_neg h2, if_neg h3]
    obtain ⟨lo, hi, hshape, hlo, hhi⟩ := shape?_four (by omega) hlt
    refine ⟨_, _, rfl, ?_⟩
    rw [sequence_eq (by omega) hshape, cons_append,
      continuation_cons (by omega) hlo hhi, cons_append,
      continuation_cons (by omega) (by omega) (by omega), cons_append,
      continuation_cons (by omega) (by omega) (by omega)]
    simp only [continuation, leadingBits, nil_append, Except.ok.injEq, Prod.mk.injEq, and_true]
    omega

lemma characters_encode (start : Nat) (cs : List Char) :
    characters start (cs.flatMap fun c => encodeChar c.toNat) = .ok cs := by
  induction cs generalizing start with
  | nil => rw [flatMap_nil, characters]
  | cons c cs ih =>
    obtain ⟨first, tail, hbytes, hseq⟩ :=
      sequence_encodeChar (n := c.toNat) c.valid (cs.flatMap fun c => encodeChar c.toNat)
    rw [flatMap_cons, hbytes, cons_append, characters]
    split
    · rename_i cause seen herror
      rw [hseq] at herror
      cases herror
    · rename_i code rest hok
      rw [hseq] at hok
      obtain ⟨rfl, rfl⟩ := Prod.mk.inj (Except.ok.inj hok)
      rw [ih, Char.ofNat_toNat]
      rfl

lemma decode_encode (s : String) : decode (encode s) = .ok s := by
  rw [decode, encode, characters_encode]
  exact congrArg Except.ok (String.ofList_toList)

end Utf8

lemma parse_blanked (source : String) : parse (blanked source) = parse source := by
  rw [parse, parse, tokens_blanked]

/-- A file gets the same reports with blanks in the place of everything that no lexical rule
    matches, and then each of its characters belongs to a token, to a comment or to white space. So
    whether such pieces are there has no influence on whether the file is accepted. -/
theorem faults_count_as_blanks (bytes : List UInt8) (source : String)
    (hdecode : Utf8.decode bytes = .ok source) :
    ∃ bytes', Utf8.decode bytes' = .ok (blanked source) ∧ lexicalErrors (blanked source) = [] ∧
      ∀ tools, checkFile tools (some bytes) = checkFile tools (some bytes') ∧
        ∀ name, compileFile tools name bytes = compileFile tools name bytes' := by
  refine ⟨Utf8.encode (blanked source), Utf8.decode_encode _, lexicalErrors_blanked source,
    fun tools => ⟨?_, fun name => ?_⟩⟩
  · rw [checkFile, checkFile, hdecode, Utf8.decode_encode]
    dsimp only
    rw [parse_blanked]
  · rw [compileFile, compileFile, hdecode, Utf8.decode_encode]
    dsimp only
    rw [parse_blanked]

/-- A file with nothing in it that is a token. -/
theorem faults_count_as_blanks_at : Utf8.decode (Utf8.encode "@") = .ok "@" ∧
      lexicalErrors "@" = [⟨⟨1, 0⟩, .unrecognized "@"⟩] ∧
      ∃ bytes', Utf8.decode bytes' = .ok (blanked "@") ∧ lexicalErrors (blanked "@") = [] ∧
        ∀ tools, checkFile tools (some (Utf8.encode "@")) = checkFile tools (some bytes') ∧
          ∀ name, compileFile tools name (Utf8.encode "@") = compileFile tools name bytes' :=
  ⟨Utf8.decode_encode "@", by decide +kernel,
    faults_count_as_blanks (Utf8.encode "@") "@" (Utf8.decode_encode "@")⟩

end Compiscript
