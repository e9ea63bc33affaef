/-!
# Summaries

How many inputs were processed, and how many of them failed.
-/
namespace PocketCalculator

structure Summary where
  total : Nat
  failed : Nat
  deriving DecidableEq, Repr

namespace Summary

/-- Before the first input. -/
def zero : Summary := ⟨0, 0⟩

/-- Counts one more input, which passed or not. -/
def record (s : Summary) (passed : Bool) : Summary :=
  ⟨s.total + 1, if passed then s.failed else s.failed + 1⟩

def allPassed (s : Summary) : Bool := s.failed == 0

def message (s : Summary) : List Char :=
  Nat.toDigits 10 s.failed ++ " of ".toList ++ Nat.toDigits 10 s.total ++ " failed".toList

end Summary

end PocketCalculator
