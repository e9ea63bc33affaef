import PocketCalculator.Decimal.Shortest

/-!
# Rounding written decimals

A written decimal is rounded digit by digit. As many digits of its fraction are kept as are
asked for. If the first of the others is at least five, one is added in the last place that is
kept, and nines pass it on to the digit before them. What is left is written with a point again
and can be read as a number.
-/
namespace PocketCalculator

/-- Digits after a minus sign, if the number they stand for is negative. -/
def withSign (negative : Bool) (digits : List Char) : List Char :=
  if negative then '-' :: digits else digits

namespace Decimal

/-- The digits before the point and the digits after it. Without a point there is no fraction. -/
def splitPoint (text : List Char) : List Char × List Char :=
  (text.takeWhile (· != '.'), (text.dropWhile (· != '.')).drop 1)

/-- One more, on digits that start with the last one. -/
def incrementReversed : List Char → List Char
  | [] => ['1']
  | digit :: before =>
    if digit = '9' then '0' :: incrementReversed before
    else Char.ofNat (digit.toNat + 1) :: before

/-- One more, with another digit in front if there are only nines. -/
def increment (digits : List Char) : List Char := (incrementReversed digits.reverse).reverse

/-- The digits that are kept, and one more if the first digit cut off is at least five. -/
def roundDigits (kept : List Char) (cut : Char) : List Char :=
  if '5' ≤ cut then increment kept else kept

/-- Digits with a point before the last `places` of them, if these are any. -/
def insertPoint (digits : List Char) (places : Nat) : List Char :=
  let split := digits.length - places
  if places = 0 then digits.take split else digits.take split ++ '.' :: digits.drop split

/-- A written decimal with its fraction rounded to `places` digits, unless it has no more. -/
def roundText? (text : List Char) (places : Nat) : Option (List Char) :=
  let (whole, fraction) := splitPoint text
  fraction[places]?.map fun cut =>
    insertPoint (roundDigits (whole ++ fraction.take places) cut) places

/-- Digits and at most one point, at least one digit among them. -/
def isPlain (text : List Char) : Bool :=
  text.all (fun c => c.isDigit || c == '.') && text.any Char.isDigit && text.count '.' ≤ 1

end Decimal

/-- The number nearest to a decimal in plain digits, perhaps after a minus sign. -/
def Binary64.ofText? (text : List Char) : Option Binary64 :=
  let negative := text.head? == some '-'
  let digits := if negative then text.tail else text
  if Decimal.isPlain digits then some ((Decimal.ofDigits digits).toBinary64 negative) else none

end PocketCalculator
