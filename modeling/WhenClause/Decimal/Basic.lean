import WhenClause.Binary64

/-!
# Decimal fractions

`⟨units, places⟩` is the number `units / 10 ^ places`. A decimal is written as a run of digits,
a point, and exactly `places` digits; it is read as the nearest binary number, where of two
equally near the one with the even significand is taken.
-/

namespace WhenClause

structure Decimal where
  units : Nat
  places : Nat
  deriving DecidableEq, Repr

def roundHalfEven (n d : Nat) : Nat :=
  if 2 * (n % d) < d then n / d
  else if d < 2 * (n % d) then n / d + 1
  else n / d + n / d % 2

namespace Binary64

/-- The word, without sign, of the binary number nearest to `n / d`. The significand of a number
of fifty-three bits or more is cut to fifty-three and rounded; smaller numbers are rounded to
whole units. A significand that rounds up to `2 ^ 53` carries into the exponent field, and
whatever would pass the largest finite number is infinity. -/
def nearestBits (n d : Nat) : Nat :=
  let exponent := (n * unitsPerOne / d).log2 - 52
  min (exponent * exponentWeight + roundHalfEven (n * unitsPerOne) (d <<< exponent)) infinityBits

end Binary64

namespace Decimal

def scale (places : Nat) : Nat := Nat.pow 10 places

def nearestBits (x : Decimal) : Nat :=
  Binary64.nearestBits x.units (scale x.places)

def ofDigits (whole fraction : List Char) : Decimal :=
  ⟨Nat.ofDigitChars 10 (whole ++ fraction) 0, fraction.length⟩

def padded (width n : Nat) : List Char :=
  let digits := Nat.toDigits 10 n
  List.replicate (width - digits.length) '0' ++ digits

def print (x : Decimal) : List Char :=
  Nat.toDigits 10 (x.units / scale x.places) ++ '.' :: padded x.places (x.units % scale x.places)

end Decimal

end WhenClause
