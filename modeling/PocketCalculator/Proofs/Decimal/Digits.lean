import Mathlib.Data.List.DropRight
import PocketCalculator.Decimal.Display
import PocketCalculator.Proofs.Binary64.Nearest

/-!
# The digits of a decimal

A decimal is recovered from the digits it is written with, and the zeros that end its fraction
can be left out without changing the number that it is read as.
-/
namespace PocketCalculator.Decimal

/-! ## Digits -/

theorem isDigit_of_mem_fixedDigits {width n : Nat} {c : Char} (h : c ∈ fixedDigits width n) :
    c.isDigit = true := by
  induction width generalizing n with
  | zero => cases h
  | succ width ih =>
    rcases List.mem_append.mp h with h | h
    · exact ih h
    · rw [List.mem_singleton.mp h]
      have hlt : n % 10 < 10 := Nat.mod_lt n (by decide)
      generalize n % 10 = digit at hlt
      revert digit
      decide

theorem isDigit_of_mem_whole {n : Nat} : ∀ c ∈ Nat.toDigits 10 n, c.isDigit = true :=
  fun _ => Nat.isDigit_of_mem_toDigits (by decide) (by decide)

theorem point_not_mem_of_isDigit {digits : List Char} (h : ∀ c ∈ digits, c.isDigit = true) :
    '.' ∉ digits := by
  intro hpoint
  cases h '.' hpoint

theorem ne_point_of_not_mem {digits : List Char} (h : '.' ∉ digits) :
    ∀ c ∈ digits, (c != '.') = true :=
  fun _ hc => bne_iff_ne.mpr (ne_of_mem_of_not_mem hc h)

theorem exists_getLast?_of_isDigit {digits : List Char} (hne : digits ≠ [])
    (h : ∀ c ∈ digits, c.isDigit = true) : ∃ c, digits.getLast? = some c ∧ c.isDigit = true :=
  ⟨_, List.getLast?_eq_some_getLast hne, h _ (List.getLast_mem hne)⟩

theorem ofDigitChars_fixedDigits (width n init : Nat) :
    Nat.ofDigitChars 10 (fixedDigits width n) init = init * 10 ^ width + n % 10 ^ width := by
  induction width generalizing n with
  | zero => simp [fixedDigits, Nat.mod_one]
  | succ width ih =>
    have hmod : n % 10 ^ (width + 1) = 10 * (n / 10 % 10 ^ width) + n % 10 := by
      rw [pow_succ', Nat.mod_mul]
      omega
    rw [fixedDigits, Nat.ofDigitChars_append, ih,
      Nat.ofDigitChars_cons_digitChar_of_lt_ten (Nat.mod_lt n (by decide)), Nat.ofDigitChars_nil,
      hmod, pow_succ]
    ring

/-! ## Reading what is written -/

/-- The decimal written with a point, also where no digits follow it. -/
def pointedText (d : Decimal) : List Char :=
  Nat.toDigits 10 (d.coefficient / 10 ^ d.places) ++ '.' :: fixedDigits d.places d.coefficient

theorem text_of_places_eq_zero {d : Decimal} (h : d.places = 0) :
    d.text = Nat.toDigits 10 d.coefficient := by
  rw [text, if_pos h, h, pow_zero, Nat.div_one]

theorem text_of_places_ne_zero {d : Decimal} (h : d.places ≠ 0) : d.text = d.pointedText :=
  if_neg h

theorem ofDigits_of_point {whole fraction : List Char} (hwhole : ∀ c ∈ whole, c.isDigit = true)
    (hfraction : ∀ c ∈ fraction, c.isDigit = true) :
    ofDigits (whole ++ '.' :: fraction) =
      ⟨Nat.ofDigitChars 10 (whole ++ fraction) 0, fraction.length⟩ := by
  have hfilter : (whole ++ '.' :: fraction).filter Char.isDigit = whole ++ fraction := by
    rw [List.filter_append, List.filter_eq_self.mpr hwhole,
      List.filter_cons_of_neg (by decide), List.filter_eq_self.mpr hfraction]
  rw [ofDigits, hfilter,
    List.dropWhile_append_of_pos (ne_point_of_not_mem (point_not_mem_of_isDigit hwhole))]
  rfl

theorem ofDigits_text (d : Decimal) : ofDigits d.text = d := by
  by_cases hplaces : d.places = 0
  · have hpoint := point_not_mem_of_isDigit (@isDigit_of_mem_whole d.coefficient)
    rw [text_of_places_eq_zero hplaces, ofDigits, List.filter_eq_self.mpr isDigit_of_mem_whole,
      Nat.ofDigitChars_ten_toDigits, List.dropWhile_eq_nil_iff.mpr (ne_point_of_not_mem hpoint),
      List.length_nil, Nat.zero_sub, ← hplaces]
  · rw [text_of_places_ne_zero hplaces, pointedText,
      ofDigits_of_point isDigit_of_mem_whole (fun _ => isDigit_of_mem_fixedDigits),
      Nat.ofDigitChars_append, Nat.ofDigitChars_ten_toDigits, ofDigitChars_fixedDigits,
      Nat.div_add_mod', fixedDigits_length]

theorem count_point_text_le (d : Decimal) : d.text.count '.' ≤ 1 := by
  have hwhole : (Nat.toDigits 10 (d.coefficient / 10 ^ d.places)).count '.' = 0 :=
    List.count_eq_zero_of_not_mem (point_not_mem_of_isDigit isDigit_of_mem_whole)
  have hfraction : (fixedDigits d.places d.coefficient).count '.' = 0 :=
    List.count_eq_zero_of_not_mem
      (point_not_mem_of_isDigit fun _ => isDigit_of_mem_fixedDigits)
  unfold text
  dsimp only
  split
  · omega
  · rw [List.count_append, List.count_cons_self]
    omega

theorem exists_getLast?_text (d : Decimal) :
    ∃ c, d.text.getLast? = some c ∧ c.isDigit = true := by
  unfold text
  dsimp only
  split
  · exact exists_getLast?_of_isDigit Nat.toDigits_ne_nil isDigit_of_mem_whole
  · rename_i hplaces
    have hne : fixedDigits d.places d.coefficient ≠ [] := by
      rw [← List.length_pos_iff, fixedDigits_length]
      omega
    obtain ⟨c, hlast, hc⟩ :=
      exists_getLast?_of_isDigit hne fun _ => isDigit_of_mem_fixedDigits
    refine ⟨c, ?_, hc⟩
    rw [List.getLast?_append, List.getLast?_cons, hlast]
    rfl

/-! ## Leaving out zeros -/

/-- The decimal with these places without the zeros that end its fraction. -/
def trimmed : (places coefficient : Nat) → Decimal
  | 0, coefficient => ⟨coefficient, 0⟩
  | places + 1, coefficient =>
    if coefficient % 10 = 0 then trimmed places (coefficient / 10)
    else ⟨coefficient, places + 1⟩

theorem dropTrailing_append {c d : Char} (text : List Char) :
    dropTrailing c (text ++ [d]) = if d = c then dropTrailing c text else text ++ [d] := by
  have hdrop := List.rdropWhile_concat (· == c) text d
  simp only [beq_iff_eq] at hdrop
  exact hdrop

theorem dropTrailing_of_getLast? {c d : Char} {text : List Char} (h : text.getLast? = some d)
    (hne : d ≠ c) : dropTrailing c text = text := by
  obtain ⟨before, rfl⟩ := List.getLast?_eq_some_iff.mp h
  rw [dropTrailing_append, if_neg hne]

theorem dropTrailing_cons {c d : Char} (hne : d ≠ c) (text : List Char) :
    dropTrailing c (d :: text) = d :: dropTrailing c text := by
  induction text using List.reverseRecOn with
  | nil => exact dropTrailing_of_getLast? rfl hne
  | append_singleton text e ih =>
    rw [← List.cons_append, dropTrailing_append, dropTrailing_append, ih]
    split <;> rfl

theorem trimFraction_cons {c : Char} (hpoint : c ≠ '.') (hzero : c ≠ '0') (text : List Char) :
    trimFraction (c :: text) = c :: trimFraction text := by
  have hcontains : (c :: text).contains '.' = text.contains '.' := by
    simp [hpoint.symm]
  unfold trimFraction
  rw [hcontains, dropTrailing_cons hzero, dropTrailing_cons hpoint]
  split <;> rfl

theorem pointedText_succ (places coefficient : Nat) :
    pointedText ⟨coefficient, places + 1⟩ =
      pointedText ⟨coefficient / 10, places⟩ ++ [Nat.digitChar (coefficient % 10)] := by
  unfold pointedText
  dsimp only
  rw [Nat.div_div_eq_div_mul, ← pow_succ', fixedDigits, List.append_assoc, List.cons_append]

theorem dropTrailing_pointedText (places coefficient : Nat) :
    dropTrailing '.' (dropTrailing '0' (pointedText ⟨coefficient, places⟩)) =
      (trimmed places coefficient).text := by
  induction places generalizing coefficient with
  | zero =>
    obtain ⟨c, hlast, hc⟩ := exists_getLast?_text ⟨coefficient, 0⟩
    have hpoint : c ≠ '.' := by
      rintro rfl
      cases hc
    have hpointed : pointedText ⟨coefficient, 0⟩ = text ⟨coefficient, 0⟩ ++ ['.'] := by
      rw [text_of_places_eq_zero rfl, pointedText, pow_zero, Nat.div_one, fixedDigits]
    rw [hpointed, dropTrailing_append, if_neg (by decide), dropTrailing_append, if_pos rfl,
      dropTrailing_of_getLast? hlast hpoint, trimmed]
  | succ places ih =>
    have hdigit : coefficient % 10 < 10 := Nat.mod_lt _ (by decide)
    rw [pointedText_succ, dropTrailing_append, trimmed]
    by_cases hzero : coefficient % 10 = 0
    · rw [hzero, if_pos (by decide), if_pos rfl, ih]
    · have hnonzero : Nat.digitChar (coefficient % 10) ≠ '0' ∧
          Nat.digitChar (coefficient % 10) ≠ '.' := by
        generalize coefficient % 10 = digit at hdigit hzero
        revert digit
        decide
      rw [if_neg hnonzero.1, dropTrailing_append, if_neg hnonzero.2, if_neg hzero,
        ← pointedText_succ, text_of_places_ne_zero (Nat.succ_ne_zero places)]

/-- What is left of a text is the text of a decimal. -/
theorem trimFraction_text (d : Decimal) :
    trimFraction d.text = (trimmed d.places d.coefficient).text := by
  unfold trimFraction
  by_cases hplaces : d.places = 0
  · have hpoint := point_not_mem_of_isDigit (@isDigit_of_mem_whole d.coefficient)
    rw [text_of_places_eq_zero hplaces, if_neg (by simpa using hpoint), hplaces, trimmed,
      text_of_places_eq_zero rfl]
  · rw [text_of_places_ne_zero hplaces, if_pos (by simp [pointedText]), dropTrailing_pointedText]

theorem toBinary64_trimmed (negative : Bool) (places coefficient : Nat) :
    (trimmed places coefficient).toBinary64 negative =
      (⟨coefficient, places⟩ : Decimal).toBinary64 negative := by
  induction places generalizing coefficient with
  | zero => rfl
  | succ places ih =>
    unfold trimmed
    split
    · rename_i hzero
      have hcoefficient : coefficient = coefficient / 10 * 10 := by omega
      rw [ih, toBinary64, toBinary64, ← Binary64.ofUnits_mul_right negative _ _ (by decide : 0 < 10)]
      conv_rhs => rw [hcoefficient]
      rw [pow_succ, mul_right_comm]
    · rfl

end PocketCalculator.Decimal
