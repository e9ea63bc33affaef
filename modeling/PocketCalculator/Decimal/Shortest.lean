import PocketCalculator.Binary64.Basic
import PocketCalculator.Decimal.Basic

/-!
# The shortest decimal of a binary64 magnitude

Every magnitude owns the interval of reals that round to it: from halfway to the magnitude
below up to halfway to the one above, the ends included exactly when its rank is even. The
shortest decimal lies on the coarsest grid of powers of ten that meets this interval and is
the point of that grid nearest to the magnitude, the upper one if two are equally near.

All points that occur, halfway points included, are multiples of 10 ^ -1075, so the search
is carried out on natural numbers counting these.
-/
namespace PocketCalculator.Decimal

-- Powers of natural numbers are the built-in ones here, whatever other instances are known.
attribute [local instance (high)] instPowNat

/-- Magnitudes and the points halfway between neighbours have at most this many places. -/
def finestPlaces : Nat := 1075

/-- Half of a smallest positive magnitude, in multiples of the finest grid. -/
def halfUnit : Nat := 5 ^ (1075 : Nat)

/-- The reals that round to one magnitude, counted on the finest grid. -/
structure Neighbourhood where
  low : Nat
  value : Nat
  high : Nat
  closed : Bool
  deriving Repr

def Neighbourhood.ofRank (rank : Nat) : Neighbourhood where
  low := (Binary64.units (rank - 1) + Binary64.units rank) * halfUnit
  value := 2 * Binary64.units rank * halfUnit
  high := (Binary64.units rank + Binary64.units (rank + 1)) * halfUnit
  closed := rank % 2 == 0

def Neighbourhood.contains (s : Neighbourhood) (point : Nat) : Bool :=
  if s.closed then s.low ≤ point && point ≤ s.high else s.low < point && point < s.high

/-- The multiple of `step` in the neighbourhood that is nearest to its value. Only the two
multiples next to the value can be, since the neighbourhood is convex. -/
def Neighbourhood.pointOn (s : Neighbourhood) (step : Nat) : Option Nat :=
  let below := s.value / step * step
  let above := below + step
  match s.contains below, s.contains above with
  | true, true => if 2 * (s.value - below) < step then some below else some above
  | true, false => some below
  | false, true => some above
  | false, false => none

/-- The coarsest grid with an exponent of at most `exponent` that meets the neighbourhood,
and its chosen point. On the finest grid the value itself is a point. -/
def Neighbourhood.coarsest (s : Neighbourhood) : (exponent : Nat) → Nat × Nat
  | 0 => (0, s.value)
  | exponent + 1 =>
    match s.pointOn (10 ^ (exponent + 1)) with
    | some point => (exponent + 1, point)
    | none => s.coarsest exponent

/-- An exponent whose power of ten is beyond a number: 2 ^ 93 is less than 10 ^ 28. -/
def exponentBeyond (n : Nat) : Nat := (n.log2 + 1) * 28 / 93 + 1

/-- The decimal with the fewest digits that reads back as the magnitude of the rank. -/
def shortest (rank : Nat) : Decimal :=
  if rank = 0 then ⟨0, 0⟩
  else
    let s := Neighbourhood.ofRank rank
    let (exponent, point) := s.coarsest (exponentBeyond s.high)
    ⟨point / 10 ^ min exponent finestPlaces, finestPlaces - exponent⟩

/-- The binary64 number nearest to a decimal of the given sign. -/
def toBinary64 (negative : Bool) (d : Decimal) : Binary64 :=
  Binary64.ofUnits negative (d.coefficient * Binary64.unitsPerOne) (10 ^ d.places)

end PocketCalculator.Decimal
