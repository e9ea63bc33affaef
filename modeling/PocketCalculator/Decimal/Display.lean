import PocketCalculator.Decimal.Written

/-!
# Rounding and showing numbers in decimal

Rounding is decimal: it acts on the shortest decimal of a number, a half going away from
zero, and never leaves a negative zero. Showing prints the exact binary value with a fixed
number of places, so the digits beyond the shortest decimal are those of the binary number.
-/
namespace PocketCalculator.Binary64

-- Powers of natural numbers are the built-in ones here, whatever other instances are known.
attribute [local instance (high)] instPowNat

/-- The number rounded to `places` fraction digits. A number whose shortest decimal has no
more places stays as it is, and so would one whose rounded digits could not be read. -/
def roundHalfAway (x : Binary64) (places : Nat) : Binary64 :=
  match x with
  | finite negative rank =>
    match Decimal.roundText? (Decimal.shortest rank).text places with
    | none => x.dropZeroSign
    | some digits => ((ofText? (withSign negative digits)).getD x).dropZeroSign
  | _ => x

/-- The exact value written with `places` fraction digits, the nearest such decimal and on a
tie the even one. -/
def fixedText (x : Binary64) (places : Nat) : List Char :=
  match x with
  | nan => "NaN".toList
  | infinity negative => (if negative then "-inf" else "inf").toList
  | finite negative rank =>
    let digits := Decimal.text ⟨roundHalfEven (units rank * 10 ^ places) unitsPerOne, places⟩
    if negative then '-' :: digits else digits

/-- What a display with `places` fraction digits shows for the number. -/
def displayText (x : Binary64) (places : Nat) : List Char :=
  (x.roundHalfAway places).fixedText places

end PocketCalculator.Binary64

namespace PocketCalculator.Decimal

def dropTrailing (c : Char) (text : List Char) : List Char :=
  (text.reverse.dropWhile (· == c)).reverse

/-- A written number without the zeros that end its fraction, nor a point then left last. A
text without a point is not changed. -/
def trimFraction (text : List Char) : List Char :=
  if text.contains '.' then dropTrailing '.' (dropTrailing '0' text) else text

end PocketCalculator.Decimal
