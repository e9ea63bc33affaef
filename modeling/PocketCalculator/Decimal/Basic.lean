/-!
# Decimals

A decimal is a natural number of units of a power of ten, `coefficient / 10 ^ places`, and
knows how many fraction digits it is written with. Signs are kept by whoever uses it.
-/
namespace PocketCalculator

-- Powers of natural numbers are the built-in ones here, whatever other instances are known.
attribute [local instance (high)] instPowNat

structure Decimal where
  coefficient : Nat
  places : Nat
  deriving DecidableEq, Repr

namespace Decimal

/-- The last `width` decimal digits of a number, leading zeros included. -/
def fixedDigits : Nat → Nat → List Char
  | 0, _ => []
  | width + 1, n => fixedDigits width (n / 10) ++ [Nat.digitChar (n % 10)]

/-- The whole part without needless zeros, then a point and exactly `places` digits unless
there are none. -/
def text (d : Decimal) : List Char :=
  let whole := Nat.toDigits 10 (d.coefficient / 10 ^ d.places)
  if d.places = 0 then whole else whole ++ '.' :: fixedDigits d.places d.coefficient

/-- The decimal that digits with at most one point stand for. -/
def ofDigits (digits : List Char) : Decimal where
  coefficient := Nat.ofDigitChars 10 (digits.filter Char.isDigit) 0
  places := (digits.dropWhile (· != '.')).length - 1

theorem fixedDigits_length (width n : Nat) : (fixedDigits width n).length = width := by
  induction width generalizing n with
  | zero => rfl
  | succ width ih => simp [fixedDigits, ih]

end Decimal

end PocketCalculator
