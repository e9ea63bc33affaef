/-!
# Binary64 numbers

A finite magnitude is known by its rank: the number of smaller magnitudes, zero having
rank 0. Ranks are read as integers in units of the smallest positive magnitude, so every
comparison and every rounding below is a computation on natural numbers. `ofUnits` is the
only place where an exact value becomes a binary64 number: nearest, a tie going to the even
rank. Not-a-number is one value; zeros and infinities keep their sign.
-/
namespace PocketCalculator

-- Powers of natural numbers are the built-in ones here, whatever other instances are known.
attribute [local instance (high)] instPowNat

/-- One more than the largest finite rank: 2047 exponents, each with 2 ^ 52 mantissas. -/
abbrev infinityRank : Nat := 2047 * 2 ^ (52 : Nat)

inductive Binary64 where
  | nan
  | infinity (negative : Bool)
  | finite (negative : Bool) (rank : Fin infinityRank)
  deriving DecidableEq, Repr

namespace Binary64

/-- There are this many smallest positive magnitudes in the number one. -/
def unitsPerOne : Nat := 2 ^ (1074 : Nat)

/-- The magnitude of a rank, counted in smallest positive magnitudes. The spacing doubles
every 2 ^ 52 ranks, the first two stretches sharing the smallest one. -/
def units (rank : Nat) : Nat :=
  let doublings := rank / 2 ^ (52 : Nat) - 1
  (rank - doublings * 2 ^ (52 : Nat)) * 2 ^ doublings

/-- The integer nearest to a quotient; a tie goes to the even one. -/
def roundHalfEven (num den : Nat) : Nat :=
  let below := num / den
  let twice := 2 * (num % den)
  if twice < den then below
  else if den < twice then below + 1
  else if below % 2 = 0 then below else below + 1

/-- The rank nearest to the magnitude `num / den` units; a tie goes to the even rank.
Ranks from `infinityRank` on stand for magnitudes out of range. -/
def nearestRank (num den : Nat) : Nat :=
  let doublings := (num / den).log2 - 52
  doublings * 2 ^ (52 : Nat) + roundHalfEven num (den * 2 ^ doublings)

/-- The number nearest to `num / den` units of the given sign, infinite beyond the range. -/
def ofUnits (negative : Bool) (num den : Nat) : Binary64 :=
  let rank := nearestRank num den
  if h : rank < infinityRank then finite negative ⟨rank, h⟩ else infinity negative

def zero (negative : Bool) : Binary64 :=
  finite negative ⟨0, by decide⟩

def isFinite : Binary64 → Bool
  | finite _ _ => true
  | _ => false

/-- Both zeros are zero. -/
def isZero : Binary64 → Bool
  | finite _ rank => rank.val == 0
  | _ => false

/-- Zero loses its sign; every other number is itself. -/
def dropZeroSign (x : Binary64) : Binary64 :=
  if x.isZero then zero false else x

/-! ## The 64-bit interchange format

A sign bit, then the rank; the first rank out of range is infinity and all later ones are
not-a-number, which is written with the quiet bit alone. -/

def ofBits (bits : Nat) : Binary64 :=
  let negative := bits / 2 ^ (63 : Nat) % 2 == 1
  let rank := bits % 2 ^ (63 : Nat)
  if h : rank < infinityRank then finite negative ⟨rank, h⟩
  else if rank = infinityRank then infinity negative
  else nan

def signBit (negative : Bool) : Nat := if negative then 2 ^ (63 : Nat) else 0

def toBits : Binary64 → Nat
  | nan => infinityRank + 2 ^ (51 : Nat)
  | infinity negative => signBit negative + infinityRank
  | finite negative rank => signBit negative + rank.val

theorem signBit_add_mod {rank : Nat} (negative : Bool) (h : rank < 2 ^ (63 : Nat)) :
    (signBit negative + rank) % 2 ^ (63 : Nat) = rank := by
  cases negative
  · rw [show signBit false = 0 from rfl, Nat.zero_add, Nat.mod_eq_of_lt h]
  · rw [show signBit true = 2 ^ (63 : Nat) from rfl, Nat.add_mod_left, Nat.mod_eq_of_lt h]

theorem signBit_add_div {rank : Nat} (negative : Bool) (h : rank < 2 ^ (63 : Nat)) :
    ((signBit negative + rank) / 2 ^ (63 : Nat) % 2 == 1) = negative := by
  cases negative
  · rw [show signBit false = 0 from rfl, Nat.zero_add, Nat.div_eq_of_lt h]
    rfl
  · rw [show signBit true = 2 ^ (63 : Nat) from rfl, Nat.add_div_left _ (Nat.two_pow_pos 63),
      Nat.div_eq_of_lt h]
    rfl

/-- Every number is recovered from its bits. -/
theorem ofBits_toBits (x : Binary64) : ofBits x.toBits = x := by
  cases x with
  | nan => decide
  | infinity negative => cases negative <;> decide
  | finite negative rank =>
    have hrank : rank.val < 2 ^ (63 : Nat) := Nat.lt_trans rank.isLt (by decide)
    rw [toBits, ofBits, dif_pos (by rw [signBit_add_mod negative hrank]; exact rank.isLt)]
    congr 1
    · exact signBit_add_div negative hrank
    · exact Fin.ext (signBit_add_mod negative hrank)

end Binary64

end PocketCalculator
