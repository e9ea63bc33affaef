import PocketCalculator.Binary64.Basic

/-!
# Binary64 arithmetic

Each operation computes the exact result as a quotient of integers counted in smallest
positive magnitudes and rounds it once by `ofUnits`. The remaining cases, those of zeros,
infinities and not-a-number, follow the usual sign rules.
-/
namespace PocketCalculator.Binary64

def neg : Binary64 → Binary64
  | nan => nan
  | infinity negative => infinity (!negative)
  | finite negative rank => finite (!negative) rank

/-- The exact value of a finite number, in smallest positive magnitudes. -/
def signedUnits (negative : Bool) (rank : Nat) : Int :=
  if negative then -(units rank : Int) else units rank

/-- A sum that cancels is negative zero only when both sides are negative. -/
def add : Binary64 → Binary64 → Binary64
  | nan, _ => nan
  | _, nan => nan
  | infinity s, infinity t => if s = t then infinity s else nan
  | infinity s, finite _ _ => infinity s
  | finite _ _, infinity t => infinity t
  | finite s m, finite t n =>
    let sum := signedUnits s m + signedUnits t n
    if sum = 0 then zero (s && t) else ofUnits (decide (sum < 0)) sum.natAbs 1

def sub (x y : Binary64) : Binary64 := add x y.neg

/-- Zero times an infinity is not a number. -/
def mul : Binary64 → Binary64 → Binary64
  | nan, _ => nan
  | _, nan => nan
  | infinity s, infinity t => infinity (s != t)
  | infinity s, finite t n => if n.val = 0 then nan else infinity (s != t)
  | finite s m, infinity t => if m.val = 0 then nan else infinity (s != t)
  | finite s m, finite t n => ofUnits (s != t) (units m * units n) unitsPerOne

/-- Zero over zero and an infinity over an infinity are not numbers. -/
def div : Binary64 → Binary64 → Binary64
  | nan, _ => nan
  | _, nan => nan
  | infinity _, infinity _ => nan
  | infinity s, finite t _ => infinity (s != t)
  | finite s _, infinity t => zero (s != t)
  | finite s m, finite t n =>
    if n.val = 0 then (if m.val = 0 then nan else infinity (s != t))
    else ofUnits (s != t) (units m * unitsPerOne) (units n)

theorem isFinite_neg (x : Binary64) : x.neg.isFinite = x.isFinite := by
  cases x <;> rfl

end PocketCalculator.Binary64
