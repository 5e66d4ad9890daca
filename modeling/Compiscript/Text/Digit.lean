/-!
# Digits

Digits of all scripts, and integers written with them.

A decimal digit is one of ten that a script uses to write numbers by place;
the ten stand next to each other in order, so the place of the zero is all
there is to store. Other digits, such as superscripts and those in circles,
have a value but no place value: they count as digits and not as decimal ones.
-/

namespace Compiscript.Text

/-- Code points of the decimal digits zero. -/
def decimalZeros : List Nat :=
  [0x30, 0x660, 0x6F0, 0x7C0, 0x966, 0x9E6, 0xA66, 0xAE6, 0xB66, 0xBE6, 0xC66, 0xCE6, 0xD66,
   0xDE6, 0xE50, 0xED0, 0xF20, 0x1040, 0x1090, 0x17E0, 0x1810, 0x1946, 0x19D0, 0x1A80, 0x1A90,
   0x1B50, 0x1BB0, 0x1C40, 0x1C50, 0xA620, 0xA8D0, 0xA900, 0xA9D0, 0xA9F0, 0xAA50, 0xABF0,
   0xFF10, 0x104A0, 0x10D30, 0x11066, 0x110F0, 0x11136, 0x111D0, 0x112F0, 0x11450, 0x114D0,
   0x11650, 0x116C0, 0x11730, 0x118E0, 0x11950, 0x11C50, 0x11D50, 0x11DA0, 0x16A60, 0x16AC0,
   0x16B50, 0x1D7CE, 0x1D7D8, 0x1D7E2, 0x1D7EC, 0x1D7F6, 0x1E140, 0x1E2F0, 0x1E950, 0x1FBF0]

/-- Code points of the digits that have no place value, as closed ranges. -/
def otherDigits : List (Nat × Nat) :=
  [(0xB2, 0xB3), (0xB9, 0xB9), (0x1369, 0x1371), (0x19DA, 0x19DA), (0x2070, 0x2070),
   (0x2074, 0x2079), (0x2080, 0x2089), (0x2460, 0x2468), (0x2474, 0x247C), (0x2488, 0x2490),
   (0x24EA, 0x24EA), (0x24F5, 0x24FD), (0x24FF, 0x24FF), (0x2776, 0x277E), (0x2780, 0x2788),
   (0x278A, 0x2792), (0x10A40, 0x10A43), (0x10E60, 0x10E68), (0x11052, 0x1105A),
   (0x1F100, 0x1F10A)]

/-- The value of a decimal digit. -/
def decimalValue? (c : Char) : Option Nat :=
  (decimalZeros.find? fun z => z ≤ c.toNat && c.toNat < z + 10).map (c.toNat - ·)

def isDecimal (c : Char) : Bool := (decimalValue? c).isSome

/-- Whether a character is a digit, decimal or other. -/
def isDigit (c : Char) : Bool :=
  isDecimal c || otherDigits.any fun (lo, hi) => lo ≤ c.toNat && c.toNat ≤ hi

/-- Whether a text is a run of digits and not empty. -/
def isNumeral (cs : List Char) : Bool := !cs.isEmpty && cs.all isDigit

/-- Whether a text is two runs of decimal digits with a point between. -/
def isPointNumeral (cs : List Char) : Bool :=
  let whole := cs.takeWhile isDecimal
  match cs.drop whole.length with
  | '.' :: rest => !whole.isEmpty && !rest.isEmpty && rest.all isDecimal
  | _ => false

/-- Blanks that may surround a written integer. -/
def isBlank (c : Char) : Bool :=
  let n := c.toNat
  (9 ≤ n && n ≤ 13) || n == 32 || n == 0x85 || n == 0xA0 || n == 0x1680 ||
    (0x2000 ≤ n && n ≤ 0x200A) || n == 0x2028 || n == 0x2029 || n == 0x202F || n == 0x205F ||
    n == 0x3000

/-- Read decimal digits; single underscores may stand between two of them.
    `acc` is the value read so far. -/
def readDigits? (acc : Nat) : List Char → Option Nat
  | [] => some acc
  | '_' :: c :: rest => do readDigits? (acc * 10 + (← decimalValue? c)) rest
  | c :: rest => do readDigits? (acc * 10 + (← decimalValue? c)) rest

/-- Read an unsigned integer: a digit, then more. -/
def readNat? : List Char → Option Nat
  | [] => none
  | c :: rest => do readDigits? (← decimalValue? c) rest

/-- The integer a text stands for: decimal digits of any script, with an
    optional sign before and blanks around. -/
def readInt? (s : String) : Option Int :=
  let trimmed := ((s.toList.dropWhile isBlank).reverse.dropWhile isBlank).reverse
  match trimmed with
  | '-' :: rest => (readNat? rest).map fun n => -(n : Int)
  | '+' :: rest => (readNat? rest).map Int.ofNat
  | cs => (readNat? cs).map Int.ofNat

end Compiscript.Text
