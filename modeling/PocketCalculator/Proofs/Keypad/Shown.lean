import PocketCalculator.Proofs.Decimal.Digits
import PocketCalculator.Proofs.Evaluation.Finite
import PocketCalculator.Proofs.Keypad.Accepts

/-!
# Shown values can be typed

The value of an expression is a finite number, so what is shown of it is digits with perhaps
a minus sign and a point: a typable text without a group, from which typing can go on.
-/
namespace PocketCalculator

namespace Keypad

open Brackets

theorem admits_of_digits {whole fraction : List Char} {precision : Nat}
    (hwhole : ∀ c ∈ whole, c.isDigit = true) (hfraction : ∀ c ∈ fraction, c.isDigit = true)
    (hpos : precision ≠ 0) (hlength : fraction.length ≤ precision) :
    Admits precision (whole ++ '.' :: fraction) where
  points := by
    rw [List.count_append, List.count_cons_self,
      List.count_eq_zero_of_not_mem (Decimal.point_not_mem_of_isDigit hwhole),
      List.count_eq_zero_of_not_mem (Decimal.point_not_mem_of_isDigit hfraction)]
  whole h := absurd h hpos
  fraction := by
    rw [fractionOf, List.dropWhile_append_of_pos
      (Decimal.ne_point_of_not_mem (Decimal.point_not_mem_of_isDigit hwhole))]
    simpa using hlength

theorem admits_text (d : Decimal) : Admits d.places d.text := by
  unfold Decimal.text
  dsimp only
  split
  · exact admits_of_not_mem _
      (Decimal.point_not_mem_of_isDigit Decimal.isDigit_of_mem_whole)
  · rename_i hpos
    exact admits_of_digits Decimal.isDigit_of_mem_whole
      (fun _ => Decimal.isDigit_of_mem_fixedDigits) hpos (Decimal.fixedDigits_length _ _).le

/-! ## The shown text -/

variable {precision : Nat}

/-- The last operand of a typable text may go on in any way that it admits. -/
theorem Typable.append_operand {w operand : List Char} (h : Typable precision w)
    (hchars : ∀ c ∈ operand, isOperandChar c = true)
    (hadmits : Admits precision (lastOperand w ++ operand)) :
    Typable precision (w ++ operand) ∧
      lastOperand (w ++ operand) = lastOperand w ++ operand := by
  induction operand using List.reverseRecOn with
  | nil => simpa using h
  | append_singleton operand c ih =>
    rw [← List.append_assoc] at hadmits
    have hc := hchars c (by simp)
    obtain ⟨htypable, hlast⟩ :=
      ih (fun d hd => hchars d (by simp [hd])) hadmits.of_append
    rw [← List.append_assoc, ← List.append_assoc, lastOperand_append, if_pos hc, hlast]
    rw [← hlast] at hadmits
    exact ⟨htypable.append ((mayFollow_operandChar hc).mpr hadmits), rfl⟩

theorem typable_minus : Typable precision ['-'] := by
  have hminus : MayFollow precision [] Operator.subtract.glyph :=
    (mayFollow_glyph .subtract).mpr ⟨fun _ => rfl, by simp⟩
  exact (Typable.nil precision).append hminus

/-- A typable text in which no group is opened. -/
structure Ungrouped (precision : Nat) (text : List Char) : Prop where
  typable : Typable precision text
  no_group : '(' ∉ text

theorem Ungrouped.unclosed_eq_zero {text : List Char} (h : Ungrouped precision text) :
    unclosed text = 0 := by
  rw [unclosed, opens_eq_zero h.no_group, Nat.zero_sub]

theorem Ungrouped.initial {u text : List Char} (h : Ungrouped precision text)
    (hu : u <+: text) : Ungrouped precision u :=
  ⟨h.typable.initial hu, fun hopen => h.no_group (hu.subset hopen)⟩

theorem ungrouped_of_operand {sign operand : List Char} (hsign : sign = [] ∨ sign = ['-'])
    (hchars : ∀ c ∈ operand, isOperandChar c = true) (hadmits : Admits precision operand) :
    Ungrouped precision (sign ++ operand) := by
  have hopen : '(' ∉ operand := by
    intro hmem
    cases hchars '(' hmem
  rcases hsign with rfl | rfl
  · exact ⟨((Typable.nil precision).append_operand hchars hadmits).1, hopen⟩
  · exact ⟨(typable_minus.append_operand hchars hadmits).1, by simpa using hopen⟩

theorem ungrouped_fixedText {x : Binary64} (h : x.isFinite = true) (places : Nat) :
    Ungrouped places (x.fixedText places) := by
  cases x with
  | nan => cases h
  | infinity negative => cases h
  | finite negative rank =>
    unfold Binary64.fixedText
    dsimp only
    generalize hd : (⟨_, places⟩ : Decimal) = d
    have hplaces : d.places = places := by rw [← hd]
    have hadmits := admits_text d
    rw [hplaces] at hadmits
    split
    · exact ungrouped_of_operand (Or.inr rfl) (fun _ => isOperandChar_of_mem_text) hadmits
    · exact ungrouped_of_operand (Or.inl rfl) (fun _ => isOperandChar_of_mem_text) hadmits

theorem trimFraction_initial (text : List Char) : Decimal.trimFraction text <+: text := by
  have hdrop : ∀ (c : Char) (u : List Char), Decimal.dropTrailing c u <+: u :=
    fun c u => List.rdropWhile_prefix (· == c) u
  unfold Decimal.trimFraction
  split
  · exact (hdrop '.' _).trans (hdrop '0' text)
  · exact List.prefix_refl text

/-- What is shown of a value can be typed, without opening a group. -/
theorem ungrouped_of_evaluate {s : Settings} {expression text : List Char}
    (h : s.evaluate expression = .ok text) :
    Ungrouped s.precision (Decimal.trimFraction text) := by
  obtain ⟨x, hx, h⟩ := Reader.bind_eq_ok h
  cases h
  have hfinite := Binary64.isFinite_roundHalfAway (s.isFinite_of_evaluateValue hx) s.precision
  exact (ungrouped_fixedText hfinite s.precision).initial (trimFraction_initial _)

end Keypad

end PocketCalculator
