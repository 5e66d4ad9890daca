/-!
# Quotients with One Decimal

A quotient of two numbers, written with one digit behind the point.

The quotient is first taken as a binary fraction of 53 digits, and only that
fraction is rounded to tenths. Both roundings go to the nearest value, and to
the even one from the middle. The first one decides what happens to quotients
such as 4.35, which lie in the middle as such but not as a binary fraction.
-/

namespace Compiscript.Text

/-- The integer nearest to `a / b`, the even one from the middle. -/
def roundDiv (a b : Nat) : Nat :=
  let q := a / b
  let twice := 2 * (a % b)
  if twice < b then q
  else if b < twice then q + 1
  else if q % 2 = 0 then q
  else q + 1

/-- The binary fraction of 53 digits nearest to `a / b`, as a numerator and a
    denominator. -/
def binaryQuotient (a b : Nat) : Nat × Nat :=
  if a = 0 then (0, 1)
  else
    -- Scale until the quotient has 53 digits, then drop what is behind them.
    let shift := 53 + b.log2
    let digits := (a * Nat.pow 2 shift / b).log2 + 1
    let excess := digits - 53
    (roundDiv (a * .pow 2 shift) (b * .pow 2 excess) * .pow 2 excess, .pow 2 shift)

/-- The quotient `a / b` with one decimal. -/
def tenths (a b : Nat) : String :=
  let (num, den) := binaryQuotient a b
  let n := roundDiv (10 * num) den
  toString (n / 10) ++ "." ++ toString (n % 10)

end Compiscript.Text
