import PocketCalculator.Proofs.Decimal.Digits

/-!
# Rounding of the digits

Rounding a written decimal digit by digit is rounding the decimal. The digits that are built are
more than the fraction is to have, so there is room for the point, and what is written with it is
always a number.
-/
namespace PocketCalculator

namespace Decimal

/-- Rounding to `places` fraction digits, a half going up; a decimal that has no more than
these is left alone. -/
def roundHalfUp (d : Decimal) (places : Nat) : Decimal :=
  if d.places ≤ places then d
  else
    let unit := 10 ^ (d.places - places)
    ⟨(d.coefficient + unit / 2) / unit, places⟩

theorem roundHalfUp_of_places_le {d : Decimal} {places : Nat} (h : d.places ≤ places) :
    d.roundHalfUp places = d := if_pos h

/-! ## Adding one -/

variable {c : Char} {digits : List Char}

theorem toNat_ofNat_succ (hc : c.isDigit = true) : (Char.ofNat (c.toNat + 1)).toNat = c.toNat + 1 := by
  have hhigh : c.toNat ≤ 57 := (Char.isDigit_iff_toNat.mp hc).2
  generalize c.toNat = code at hhigh
  revert code
  decide

theorem toNat_lt_of_ne_nine (hc : c.isDigit = true) (hnine : c ≠ '9') : c.toNat < 57 := by
  have hhigh : c.toNat ≤ 57 := (Char.isDigit_iff_toNat.mp hc).2
  refine lt_of_le_of_ne hhigh fun heq => hnine ?_
  rw [← Char.ofNat_toNat c, heq]

theorem isDigit_incrementReversed (h : ∀ c ∈ digits, c.isDigit = true) :
    ∀ c ∈ incrementReversed digits, c.isDigit = true := by
  induction digits with
  | nil => simp [incrementReversed]
  | cons digit before ih =>
    obtain ⟨hdigit, hbefore⟩ := List.forall_mem_cons.mp h
    unfold incrementReversed
    split
    · exact List.forall_mem_cons.mpr ⟨rfl, ih hbefore⟩
    · rename_i hnine
      refine List.forall_mem_cons.mpr ⟨?_, hbefore⟩
      have hlow : 48 ≤ digit.toNat := (Char.isDigit_iff_toNat.mp hdigit).1
      have hhigh := toNat_lt_of_ne_nine hdigit hnine
      rw [Char.isDigit_iff_toNat, toNat_ofNat_succ hdigit]
      exact ⟨hlow.trans (Nat.le_succ _), hhigh⟩

theorem length_le_incrementReversed (digits : List Char) :
    digits.length ≤ (incrementReversed digits).length := by
  induction digits with
  | nil => exact Nat.zero_le _
  | cons digit before ih =>
    unfold incrementReversed
    split
    · exact Nat.succ_le_succ ih
    · exact Nat.le_refl _

theorem ofDigitChars_concat (digits : List Char) (c : Char) :
    Nat.ofDigitChars 10 (digits ++ [c]) 0 =
      10 * Nat.ofDigitChars 10 digits 0 + (c.toNat - '0'.toNat) := by
  rw [Nat.ofDigitChars_append, Nat.ofDigitChars_cons, Nat.ofDigitChars_nil]

theorem ofDigitChars_incrementReversed (h : ∀ c ∈ digits, c.isDigit = true) :
    Nat.ofDigitChars 10 (incrementReversed digits).reverse 0 =
      Nat.ofDigitChars 10 digits.reverse 0 + 1 := by
  induction digits with
  | nil => rfl
  | cons digit before ih =>
    obtain ⟨hdigit, hbefore⟩ := List.forall_mem_cons.mp h
    rw [incrementReversed, List.reverse_cons, ofDigitChars_concat]
    split
    · rename_i hnine
      rw [hnine, List.reverse_cons, ofDigitChars_concat, ih hbefore, Nat.mul_add]
      rfl
    · have hlow : '0'.toNat ≤ digit.toNat := (Char.isDigit_iff_toNat.mp hdigit).1
      rw [List.reverse_cons, ofDigitChars_concat, toNat_ofNat_succ hdigit, Nat.sub_add_comm hlow,
        Nat.add_assoc]

theorem isDigit_increment (h : ∀ c ∈ digits, c.isDigit = true) :
    ∀ c ∈ increment digits, c.isDigit = true := by
  have hreversed := @isDigit_incrementReversed digits.reverse (by simpa using h)
  simpa [increment] using hreversed

theorem length_le_increment (digits : List Char) : digits.length ≤ (increment digits).length := by
  simpa [increment] using length_le_incrementReversed digits.reverse

theorem ofDigitChars_increment (h : ∀ c ∈ digits, c.isDigit = true) :
    Nat.ofDigitChars 10 (increment digits) 0 = Nat.ofDigitChars 10 digits 0 + 1 := by
  have hreversed := @ofDigitChars_incrementReversed digits.reverse (by simpa using h)
  rwa [List.reverse_reverse] at hreversed

/-! ## The digits that are built -/

/-- Digits of a number, more of them than there are to be places. -/
structure IsScaled (places number : Nat) (digits : List Char) : Prop where
  isDigit : ∀ c ∈ digits, c.isDigit = true
  places_lt : places < digits.length
  number_eq : Nat.ofDigitChars 10 digits 0 = number

variable {places number : Nat}

theorem IsScaled.increment (h : IsScaled places number digits) :
    IsScaled places (number + 1) (increment digits) where
  isDigit := isDigit_increment h.isDigit
  places_lt := h.places_lt.trans_le (length_le_increment digits)
  number_eq := by rw [ofDigitChars_increment h.isDigit, h.number_eq]

theorem IsScaled.split_pos (h : IsScaled places number digits) :
    0 < digits.length - places := Nat.sub_pos_of_lt h.places_lt

/-- With a point the digits are those of a decimal with as many places. -/
theorem IsScaled.ofDigits_insertPoint (h : IsScaled places number digits) :
    ofDigits (insertPoint digits places) = ⟨number, places⟩ := by
  unfold insertPoint
  dsimp only
  split
  · rename_i hplaces
    have hpoint := ne_point_of_not_mem (point_not_mem_of_isDigit h.isDigit)
    rw [hplaces, Nat.sub_zero, List.take_length, ofDigits, List.filter_eq_self.mpr h.isDigit,
      h.number_eq, List.dropWhile_eq_nil_iff.mpr hpoint]
    rfl
  · have hplaces := h.places_lt
    rw [ofDigits_of_point (fun c hc => h.isDigit c (List.mem_of_mem_take hc))
      (fun c hc => h.isDigit c (List.mem_of_mem_drop hc)), List.take_append_drop, h.number_eq,
      List.length_drop, Nat.sub_sub_self hplaces.le]

theorem isPlain_iff {text : List Char} : isPlain text = true ↔
    (∀ c ∈ text, c.isDigit = true ∨ c = '.') ∧ (∃ c ∈ text, c.isDigit = true) ∧
      text.count '.' ≤ 1 := by
  simp [isPlain, and_assoc]

theorem count_point_of_isDigit (h : ∀ c ∈ digits, c.isDigit = true) : digits.count '.' = 0 :=
  List.count_eq_zero_of_not_mem (point_not_mem_of_isDigit h)

theorem isPlain_of_isDigit (hne : digits ≠ []) (h : ∀ c ∈ digits, c.isDigit = true) :
    isPlain digits = true := by
  obtain ⟨c, hc⟩ := List.exists_mem_of_ne_nil digits hne
  refine isPlain_iff.mpr ⟨fun c hc => Or.inl (h c hc), ⟨c, hc, h c hc⟩, ?_⟩
  simp [count_point_of_isDigit h]

theorem isPlain_of_point {whole fraction : List Char} (hne : whole ≠ [])
    (hwhole : ∀ c ∈ whole, c.isDigit = true) (hfraction : ∀ c ∈ fraction, c.isDigit = true) :
    isPlain (whole ++ '.' :: fraction) = true := by
  obtain ⟨c, hc⟩ := List.exists_mem_of_ne_nil whole hne
  refine isPlain_iff.mpr ⟨List.forall_mem_append.mpr ⟨fun c hc => Or.inl (hwhole c hc), ?_⟩,
    ⟨c, List.mem_append_left _ hc, hwhole c hc⟩, ?_⟩
  · exact List.forall_mem_cons.mpr ⟨Or.inr rfl, fun c hc => Or.inl (hfraction c hc)⟩
  · simp [count_point_of_isDigit hwhole, count_point_of_isDigit hfraction]

theorem isPlain_text (d : Decimal) : isPlain d.text = true := by
  by_cases hplaces : d.places = 0
  · rw [text_of_places_eq_zero hplaces]
    exact isPlain_of_isDigit Nat.toDigits_ne_nil isDigit_of_mem_whole
  · rw [text_of_places_ne_zero hplaces]
    exact isPlain_of_point Nat.toDigits_ne_nil isDigit_of_mem_whole
      fun _ => isDigit_of_mem_fixedDigits

theorem IsScaled.isPlain_insertPoint (h : IsScaled places number digits) :
    isPlain (insertPoint digits places) = true := by
  have hne : digits.take (digits.length - places) ≠ [] := by
    rw [← List.length_pos_iff, List.length_take]
    exact Nat.lt_min.mpr ⟨h.split_pos, (Nat.zero_le places).trans_lt h.places_lt⟩
  have hwhole : ∀ c ∈ digits.take (digits.length - places), c.isDigit = true :=
    fun c hc => h.isDigit c (List.mem_of_mem_take hc)
  unfold insertPoint
  dsimp only
  split
  · exact isPlain_of_isDigit hne hwhole
  · exact isPlain_of_point hne hwhole fun c hc => h.isDigit c (List.mem_of_mem_drop hc)

/-! ## The digits that are cut off -/

theorem fixedDigits_add (width more n : Nat) :
    fixedDigits (width + more) n = fixedDigits width (n / 10 ^ more) ++ fixedDigits more n := by
  induction more generalizing n with
  | zero => rw [pow_zero, Nat.div_one, fixedDigits, List.append_nil, Nat.add_zero]
  | succ more ih =>
    rw [← Nat.add_assoc, fixedDigits, ih, fixedDigits, Nat.div_div_eq_div_mul, ← pow_succ',
      List.append_assoc]

theorem splitPoint_of_isDigit {digits : List Char} (h : ∀ c ∈ digits, c.isDigit = true) :
    splitPoint digits = (digits, []) := by
  have hpoint := ne_point_of_not_mem (point_not_mem_of_isDigit h)
  rw [splitPoint, List.takeWhile_eq_self_iff.mpr hpoint, List.dropWhile_eq_nil_iff.mpr hpoint]
  rfl

theorem splitPoint_of_point {whole fraction : List Char}
    (h : ∀ c ∈ whole, c.isDigit = true) :
    splitPoint (whole ++ '.' :: fraction) = (whole, fraction) := by
  have hpoint := ne_point_of_not_mem (point_not_mem_of_isDigit h)
  rw [splitPoint, List.takeWhile_append_of_pos hpoint, List.dropWhile_append_of_pos hpoint,
    List.takeWhile_cons_of_neg (by decide), List.dropWhile_cons_of_neg (by decide), List.append_nil]
  rfl

theorem splitPoint_text (d : Decimal) : splitPoint d.text =
    (Nat.toDigits 10 (d.coefficient / 10 ^ d.places), fixedDigits d.places d.coefficient) := by
  by_cases hplaces : d.places = 0
  · rw [text_of_places_eq_zero hplaces, splitPoint_of_isDigit isDigit_of_mem_whole, hplaces,
      pow_zero, Nat.div_one]
    rfl
  · rw [text_of_places_ne_zero hplaces, pointedText, splitPoint_of_point isDigit_of_mem_whole]

/-- The digits of a decimal that are kept, and the first of the others. -/
theorem getElem?_fixedDigits (places more n : Nat) :
    (fixedDigits (places + (more + 1)) n)[places]? = some (Nat.digitChar (n / 10 ^ more % 10)) ∧
    (fixedDigits (places + (more + 1)) n).take places =
      fixedDigits places (n / 10 ^ (more + 1)) := by
  have hlength := fixedDigits_length places (n / 10 ^ (more + 1))
  have hcut : fixedDigits (more + 1) n =
      Nat.digitChar (n / 10 ^ more % 10) :: fixedDigits more n := by
    rw [Nat.add_comm, fixedDigits_add]
    rfl
  rw [fixedDigits_add, hcut]
  constructor
  · rw [List.getElem?_append_right hlength.le, hlength, Nat.sub_self]
    rfl
  · exact List.take_left' hlength

/-- Without the digits that are cut off, a whole part and a fraction are a quotient. -/
theorem isScaled_kept (places more n : Nat) : IsScaled places (n / 10 ^ (more + 1))
    (Nat.toDigits 10 (n / 10 ^ (places + (more + 1))) ++
      fixedDigits places (n / 10 ^ (more + 1))) where
  isDigit := by
    intro c hc
    rcases List.mem_append.mp hc with hc | hc
    · exact isDigit_of_mem_whole c hc
    · exact isDigit_of_mem_fixedDigits hc
  places_lt := by
    rw [List.length_append, fixedDigits_length]
    exact Nat.lt_add_of_pos_left (List.length_pos_iff.mpr Nat.toDigits_ne_nil)
  number_eq := by
    have hwhole : n / 10 ^ (places + (more + 1)) = n / 10 ^ (more + 1) / 10 ^ places := by
      rw [Nat.div_div_eq_div_mul, ← pow_add, Nat.add_comm places]
    rw [Nat.ofDigitChars_append, Nat.ofDigitChars_ten_toDigits, ofDigitChars_fixedDigits, hwhole,
      Nat.div_add_mod']

theorem five_le_digitChar {digit : Nat} (h : digit < 10) :
    '5' ≤ Nat.digitChar digit ↔ 5 ≤ digit := by
  revert digit
  decide

/-- Half of a unit is reached exactly if the first digit cut off is at least five. -/
theorem add_half_div (n more : Nat) : (n + 10 ^ (more + 1) / 2) / 10 ^ (more + 1) =
    n / 10 ^ (more + 1) + if 5 ≤ n / 10 ^ more % 10 then 1 else 0 := by
  obtain ⟨unit, hunit⟩ : ∃ unit, 10 ^ more = unit := ⟨_, rfl⟩
  have hpos : 0 < unit := hunit ▸ Nat.pow_pos (by decide)
  have hdigit : n / unit / 10 = n / (10 * unit) := by
    rw [Nat.div_div_eq_div_mul, Nat.mul_comm]
  have hrest := Nat.div_add_mod n unit
  have hlt := Nat.mod_lt n hpos
  obtain ⟨quotient, hquotient⟩ : ∃ quotient, n / unit = quotient := ⟨_, rfl⟩
  rw [pow_succ', hunit, ← hdigit, hquotient, show 10 * unit / 2 = 5 * unit by omega,
    Nat.mul_comm 10, ← Nat.div_div_eq_div_mul, Nat.add_mul_div_right _ _ hpos, hquotient]
  split <;> omega

variable {d : Decimal} {cut : Char}

theorem length_fraction (d : Decimal) : (splitPoint d.text).2.length = d.places := by
  rw [splitPoint_text, fixedDigits_length]

theorem places_lt_of_cut (hcut : (splitPoint d.text).2[places]? = some cut) :
    places < d.places := by
  rw [← length_fraction d]
  exact (List.getElem?_eq_some_iff.mp hcut).1

/-- The digits that are built are those of the decimal that is rounded half up. -/
theorem isScaled_roundDigits (hcut : (splitPoint d.text).2[places]? = some cut) :
    IsScaled places (d.roundHalfUp places).coefficient
      (roundDigits ((splitPoint d.text).1 ++ (splitPoint d.text).2.take places) cut) := by
  have h := places_lt_of_cut hcut
  obtain ⟨more, hmore⟩ : ∃ more, d.places = places + (more + 1) :=
    ⟨d.places - places - 1, by omega⟩
  obtain ⟨hfirst, hkept⟩ := getElem?_fixedDigits places more d.coefficient
  have hscaled := isScaled_kept places more d.coefficient
  have hhalf := add_half_div d.coefficient more
  have hlt : d.coefficient / 10 ^ more % 10 < 10 := Nat.mod_lt _ (by decide)
  rw [splitPoint_text, hmore] at hcut ⊢
  rw [hfirst, Option.some.injEq] at hcut
  rw [hkept, roundHalfUp, if_neg (Nat.not_le_of_lt h), hmore, Nat.add_sub_cancel_left, roundDigits,
    ← hcut]
  dsimp only
  rw [hhalf]
  by_cases hfive : 5 ≤ d.coefficient / 10 ^ more % 10
  · rw [if_pos hfive, if_pos ((five_le_digitChar hlt).mpr hfive)]
    exact hscaled.increment
  · rw [if_neg hfive, if_neg fun hchar => hfive ((five_le_digitChar hlt).mp hchar)]
    exact hscaled

end Decimal

namespace Binary64

theorem ofText?_withSign {digits : List Char} (h : Decimal.isPlain digits = true)
    (negative : Bool) : ofText? (withSign negative digits) =
      some ((Decimal.ofDigits digits).toBinary64 negative) := by
  cases negative with
  | true => exact if_pos h
  | false =>
    have hminus : (digits.head? == some '-') = false := by
      rw [beq_eq_false_iff_ne]
      intro hhead
      have hchar := (Decimal.isPlain_iff.mp h).1 '-' (List.mem_of_head? hhead)
      exact absurd hchar (by decide)
    rw [withSign, if_neg Bool.false_ne_true, ofText?, hminus]
    exact if_pos h

/-- The digits that rounding builds are always read. -/
theorem ofText?_roundDigits {d : Decimal} {places : Nat} {cut : Char}
    (hcut : (Decimal.splitPoint d.text).2[places]? = some cut) (negative : Bool) :
    ofText? (withSign negative (Decimal.insertPoint (Decimal.roundDigits
      ((Decimal.splitPoint d.text).1 ++ (Decimal.splitPoint d.text).2.take places) cut) places)) =
      some ((d.roundHalfUp places).toBinary64 negative) := by
  have hscaled := Decimal.isScaled_roundDigits hcut
  have hplaces : (d.roundHalfUp places).places = places := by
    rw [Decimal.roundHalfUp, if_neg (Nat.not_le_of_lt (Decimal.places_lt_of_cut hcut))]
  rw [ofText?_withSign hscaled.isPlain_insertPoint, hscaled.ofDigits_insertPoint]
  nth_rewrite 2 [← hplaces]
  rfl

/-- Rounding the written digits is rounding the shortest decimal half up. -/
theorem roundHalfAway_eq_ite (negative : Bool) (rank : Fin infinityRank) (places : Nat) :
    (finite negative rank).roundHalfAway places =
      if (Decimal.shortest rank).places ≤ places then (finite negative rank).dropZeroSign
      else (((Decimal.shortest rank).roundHalfUp places).toBinary64 negative).dropZeroSign := by
  unfold roundHalfAway Decimal.roundText?
  dsimp only
  split
  · rename_i hnone
    rw [Option.map_eq_none_iff, List.getElem?_eq_none_iff, Decimal.length_fraction] at hnone
    rw [if_pos hnone]
  · rename_i digits hsome
    obtain ⟨cut, hcut, rfl⟩ := Option.map_eq_some_iff.mp hsome
    rw [if_neg (Nat.not_le_of_lt (Decimal.places_lt_of_cut hcut)), ofText?_roundDigits hcut,
      Option.getD_some]

end Binary64

end PocketCalculator
