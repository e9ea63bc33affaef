import PocketCalculator.Proofs.Decimal.Digits

/-!
# Plain decimals

A decimal is written in plain digits: a whole part that starts with a zero only if it is zero,
then a point and as many digits as the decimal has places. If these digits are zeros, so is the
decimal.
-/
namespace PocketCalculator.Decimal

variable {digits : List Char} {places : Nat}

/-- A zero, or digits of which the first is not a zero. -/
structure IsWhole (digits : List Char) : Prop where
  isDigit : ∀ c ∈ digits, c.isDigit = true
  nonempty : digits ≠ []
  eq_zero : digits.head? = some '0' → digits = ['0']

/-- A point and exactly this many digits, or nothing where no digits are asked for. -/
inductive IsFraction : Nat → List Char → Prop where
  | none : IsFraction 0 []
  | point {places : Nat} {digits : List Char} (hlength : digits.length = places + 1)
      (isDigit : ∀ c ∈ digits, c.isDigit = true) : IsFraction (places + 1) ('.' :: digits)

theorem head?_toDigits {n : Nat} (h : n ≠ 0) : (Nat.toDigits 10 n).head? ≠ some '0' := by
  -- Digits are taken off at the other end, so the first one is that of the last quotient.
  induction n using Nat.strong_induction_on with
  | _ n ih =>
    rcases Nat.lt_or_ge n 10 with hsmall | hgreat
    · rw [Nat.toDigits_of_lt_base hsmall]
      exact fun hhead => h (Nat.digitChar_eq_zero.mp (Option.some.inj hhead))
    · rw [Nat.toDigits_of_base_le (by decide) hgreat,
        List.head?_append_of_ne_nil _ Nat.toDigits_ne_nil]
      exact ih (n / 10) (by omega) (by omega)

theorem isWhole_toDigits (n : Nat) : IsWhole (Nat.toDigits 10 n) where
  isDigit := isDigit_of_mem_whole
  nonempty := Nat.toDigits_ne_nil
  eq_zero hhead := by
    have hzero : n = 0 := by
      by_contra hne
      exact head?_toDigits hne hhead
    rw [hzero]
    rfl

/-- A decimal is written as a whole part and a fraction of exactly its places. -/
theorem exists_text_eq (d : Decimal) : ∃ whole fraction, d.text = whole ++ fraction ∧
    IsWhole whole ∧ IsFraction d.places fraction := by
  refine ⟨Nat.toDigits 10 (d.coefficient / 10 ^ d.places),
    if d.places = 0 then [] else '.' :: fixedDigits d.places d.coefficient, ?_,
    isWhole_toDigits _, ?_⟩
  · unfold text
    dsimp only
    split
    · rw [List.append_nil]
    · rfl
  · cases hplaces : d.places with
    | zero => exact .none
    | succ places =>
      exact .point (fixedDigits_length _ _) fun _ => isDigit_of_mem_fixedDigits

/-- No digit of the text is other than zero. -/
def AllZeros (text : List Char) : Prop := ∀ c ∈ text, c.isDigit = true → c = '0'

theorem ofDigitChars_eq_zero (h : ∀ c ∈ digits, c = '0') : Nat.ofDigitChars 10 digits 0 = 0 := by
  induction digits with
  | nil => rfl
  | cons c digits ih =>
    rw [h c (by simp), Nat.ofDigitChars_cons]
    exact ih fun d hd => h d (by simp [hd])

theorem coefficient_eq_zero_of_allZeros {d : Decimal} (h : AllZeros d.text) :
    d.coefficient = 0 := by
  rw [← congrArg coefficient d.ofDigits_text]
  refine ofDigitChars_eq_zero fun c hc => ?_
  obtain ⟨hmem, hdigit⟩ := List.mem_filter.mp hc
  exact h c hmem hdigit

end PocketCalculator.Decimal
