import Mathlib.Data.List.DropRight
import PocketCalculator.Keypad.Basic
import PocketCalculator.Proofs.Brackets
import PocketCalculator.Proofs.Decimal.Digits

/-!
# Typable texts

The language of the texts that can be typed on a keypad, by what may stand next to what and
by what an operand may hold. It is prefix closed, and which characters may come next depends
on the last one, on the operand at the end, and on whether a group is open.
-/
namespace PocketCalculator.Keypad

open Brackets

def brackets : Brackets Char := ⟨'(', ')', by decide⟩

/-- A character that an operator is shown with. -/
def IsGlyph (c : Char) : Prop := ∃ op : Operator, c = op.glyph

/-- Digits, the point, the operators and the parentheses. -/
def IsTyped (c : Char) : Prop := isOperandChar c = true ∨ IsGlyph c ∨ c = '(' ∨ c = ')'

/-- In the text `w` a maximal run of digits and points, and what stands around it. -/
structure IsOperand (w before operand after : List Char) : Prop where
  split : w = before ++ (operand ++ after)
  ne_nil : operand ≠ []
  chars : ∀ c ∈ operand, isOperandChar c = true
  left : ∀ c ∈ before.getLast?, isOperandChar c = false
  right : ∀ c ∈ after.head?, isOperandChar c = false

/-- What stands after the point of an operand. -/
def fractionOf (operand : List Char) : List Char := (operand.dropWhile (· != '.')).tail

/-- An operand with at most one point and at most `precision` digits after it, and with no
point if `precision` is zero. -/
structure Admits (precision : Nat) (operand : List Char) : Prop where
  points : operand.count '.' ≤ 1
  whole : precision = 0 → '.' ∉ operand
  fraction : (fractionOf operand).length ≤ precision

structure Typable (precision : Nat) (w : List Char) : Prop where
  typed : ∀ c ∈ w, IsTyped c
  /-- In every prefix at most as many parentheses are closed as are opened. -/
  closes_le : ∀ p, p <+: w → brackets.closes p ≤ brackets.opens p
  /-- At the start and after an opening parenthesis, an operator is a minus sign. -/
  leading : ∀ u c v, w = u ++ c :: v → IsGlyph c → u = [] ∨ u.getLast? = some '(' → c = '-'
  /-- No operator follows another. -/
  apart : ∀ u c v, w = u ++ c :: v → IsGlyph c → ∀ d ∈ u.getLast?, ¬IsGlyph d
  /-- A closing parenthesis follows a digit or another one. -/
  closing : ∀ u v, w = u ++ ')' :: v → ∃ d ∈ u.getLast?, endsExpression d = true
  operands : ∀ before operand after, IsOperand w before operand after →
    Admits precision operand

/-- Digits and points at the end of a text. -/
def lastOperand (w : List Char) : List Char := w.rtakeWhile isOperandChar

/-- Whether a character may come after a text. -/
structure MayFollow (precision : Nat) (w : List Char) (c : Char) : Prop where
  typed : IsTyped c
  open_group : c = ')' → brackets.closes w < brackets.opens w
  leading : IsGlyph c → w = [] ∨ w.getLast? = some '(' → c = '-'
  apart : IsGlyph c → ∀ d ∈ w.getLast?, ¬IsGlyph d
  closing : c = ')' → ∃ d ∈ w.getLast?, endsExpression d = true
  operand : isOperandChar c = true → Admits precision (lastOperand w ++ [c])

/-! ## Operands -/

theorem fractionOf_of_not_mem {operand : List Char} (h : '.' ∉ operand) :
    fractionOf operand = [] := by
  rw [fractionOf, List.dropWhile_eq_nil_iff.mpr (Decimal.ne_point_of_not_mem h), List.tail_nil]

theorem dropWhile_ne_nil_of_mem {operand : List Char} (h : '.' ∈ operand) :
    operand.dropWhile (· != '.') ≠ [] := by
  intro hnil
  have hh := List.dropWhile_eq_nil_iff.mp hnil '.' h
  simp at hh

theorem fractionOf_append_of_mem {operand : List Char} (h : '.' ∈ operand) (c : Char) :
    fractionOf (operand ++ [c]) = fractionOf operand ++ [c] := by
  have hne := dropWhile_ne_nil_of_mem h
  have hempty : (operand.dropWhile (· != '.')).isEmpty = false := by simpa using hne
  rw [fractionOf, fractionOf, List.dropWhile_append, hempty, if_neg Bool.false_ne_true,
    List.tail_append_of_ne_nil hne]

theorem admits_of_not_mem (precision : Nat) {operand : List Char} (h : '.' ∉ operand) :
    Admits precision operand where
  points := by rw [List.count_eq_zero_of_not_mem h]; exact Nat.zero_le 1
  whole _ := h
  fraction := by rw [fractionOf_of_not_mem h]; exact Nat.zero_le precision

theorem Admits.of_append {precision : Nat} {operand : List Char} {c : Char}
    (h : Admits precision (operand ++ [c])) : Admits precision operand := by
  by_cases hm : '.' ∈ operand
  · refine ⟨?_, fun hp hm' => h.whole hp (List.mem_append_left _ hm'), ?_⟩
    · have hh := h.points
      rw [List.count_append] at hh
      omega
    · have hh := h.fraction
      rw [fractionOf_append_of_mem hm, List.length_append] at hh
      omega
  · exact admits_of_not_mem precision hm

theorem Admits.mono {precision precision' : Nat} {operand : List Char}
    (h : Admits precision operand) (hle : precision ≤ precision') :
    Admits precision' operand where
  points := h.points
  whole hp := h.whole (by omega)
  fraction := h.fraction.trans hle

theorem hasRoom_iff_of_mem {precision : Nat} {operand : List Char} (h : '.' ∈ operand) :
    hasRoom precision operand = true ↔ (fractionOf operand).length + 1 ≤ precision := by
  have hlength : (operand.dropWhile (· != '.')).length = (fractionOf operand).length + 1 := by
    rw [fractionOf, List.length_tail]
    have hpos := List.length_pos_iff.mpr (dropWhile_ne_nil_of_mem h)
    omega
  simp [hasRoom, h, hlength]

theorem admits_append_digit {precision : Nat} {operand : List Char} {c : Char}
    (hc : c.isDigit = true) (h : Admits precision operand) :
    Admits precision (operand ++ [c]) ↔ hasRoom precision operand = true := by
  have hpoint : c ≠ '.' := by rintro rfl; cases hc
  by_cases hm : '.' ∈ operand
  · rw [hasRoom_iff_of_mem hm]
    constructor
    · intro h'
      have hh := h'.fraction
      rwa [fractionOf_append_of_mem hm, List.length_append] at hh
    · intro hle
      refine ⟨?_, fun hp => absurd hm (h.whole hp), ?_⟩
      · rw [List.count_append, List.count_singleton, if_neg (by simpa using hpoint)]
        exact h.points
      · rw [fractionOf_append_of_mem hm, List.length_append]
        exact hle
  · have hm' : '.' ∉ operand ++ [c] := by simpa [hm] using hpoint.symm
    simp [hasRoom, hm, admits_of_not_mem precision hm']

theorem admits_append_point {precision : Nat} {operand : List Char} :
    Admits precision (operand ++ ['.']) ↔ precision ≠ 0 ∧ '.' ∉ operand := by
  constructor
  · intro h
    refine ⟨fun hp => h.whole hp (by simp), fun hm => ?_⟩
    have hh := h.points
    have hpos := List.count_pos_iff.mpr hm
    rw [List.count_append, List.count_singleton_self] at hh
    omega
  · rintro ⟨hp, hm⟩
    refine ⟨?_, fun hp' => absurd hp' hp, ?_⟩
    · rw [List.count_append, List.count_eq_zero_of_not_mem hm, List.count_singleton_self]
    · rw [fractionOf, List.dropWhile_append_of_pos (Decimal.ne_point_of_not_mem hm)]
      simp

/-! ## One more character -/

theorem lastOperand_append (w : List Char) (c : Char) :
    lastOperand (w ++ [c]) = if isOperandChar c then lastOperand w ++ [c] else [] :=
  List.rtakeWhile_concat isOperandChar w c

theorem isOperandChar_of_mem_lastOperand {w : List Char} {c : Char} (h : c ∈ lastOperand w) :
    isOperandChar c = true := List.mem_rtakeWhile_imp h

/-- A text ends in its last operand, with no digit or point before it. -/
theorem exists_before_lastOperand (w : List Char) :
    ∃ before, w = before ++ lastOperand w ∧ ∀ c ∈ before.getLast?, isOperandChar c = false := by
  refine ⟨w.rdropWhile isOperandChar, List.rdropWhile_append_rtakeWhile.symm, ?_⟩
  intro c hc
  obtain ⟨hne, rfl⟩ := List.mem_getLast?_eq_getLast hc
  simpa using List.rdropWhile_last_not isOperandChar w hne

theorem lastOperand_of_split {before operand : List Char}
    (hchars : ∀ c ∈ operand, isOperandChar c = true)
    (hleft : ∀ c ∈ before.getLast?, isOperandChar c = false) :
    lastOperand (before ++ operand) = operand := by
  induction operand using List.reverseRecOn with
  | nil =>
    rw [List.append_nil, lastOperand, List.rtakeWhile_eq_nil_iff]
    intro hne
    simpa using hleft _ (List.getLast?_eq_some_getLast hne)
  | append_singleton operand c ih =>
    rw [← List.append_assoc, lastOperand_append, if_pos (hchars c (by simp)),
      ih fun d hd => hchars d (by simp [hd])]

theorem IsOperand.append_complete {w before operand after : List Char} {c : Char}
    (h : IsOperand w before operand after) (hc : after ≠ [] ∨ isOperandChar c = false) :
    IsOperand (w ++ [c]) before operand (after ++ [c]) := by
  refine ⟨by simp [h.split], h.ne_nil, h.chars, h.left, ?_⟩
  intro d hd
  cases hafter : after with
  | nil =>
    rw [hafter] at hd
    cases hd
    simpa [hafter] using hc
  | cons y after' =>
    rw [hafter] at hd
    cases hd
    exact h.right d (by simp [hafter])

/-- An operand goes on in a longer text, or it is there as it was. -/
theorem IsOperand.append {w before operand after : List Char}
    (h : IsOperand w before operand after) (c : Char) :
    (isOperandChar c = true ∧ IsOperand (w ++ [c]) before (operand ++ [c]) []) ∨
      IsOperand (w ++ [c]) before operand (after ++ [c]) := by
  by_cases hc : after = [] ∧ isOperandChar c = true
  · obtain ⟨rfl, hc⟩ := hc
    refine Or.inl ⟨hc, by simp [h.split], by simp, ?_, h.left, by simp⟩
    intro d hd
    rcases List.mem_append.mp hd with hd | hd
    · exact h.chars d hd
    · rwa [List.mem_singleton.mp hd]
  · rw [not_and_or, Bool.not_eq_true] at hc
    exact Or.inr (h.append_complete hc)

theorem exists_isOperand_last (w : List Char) {c : Char} (hc : isOperandChar c = true) :
    ∃ before, IsOperand (w ++ [c]) before (lastOperand w ++ [c]) [] := by
  obtain ⟨before, hw, hleft⟩ := exists_before_lastOperand w
  refine ⟨before, ?_, by simp, ?_, hleft, by simp⟩
  · conv_lhs => rw [hw]
    simp
  · intro d hd
    rcases List.mem_append.mp hd with hd | hd
    · exact isOperandChar_of_mem_lastOperand hd
    · rwa [List.mem_singleton.mp hd]

theorem IsOperand.of_append_complete {w before operand after : List Char} {c : Char}
    (h : IsOperand (w ++ [c]) before operand after) (hafter : after ≠ []) :
    ∃ after', after = after' ++ [c] ∧ IsOperand w before operand after' := by
  obtain ⟨after', y, rfl⟩ := List.eq_nil_or_concat after |>.resolve_left hafter
  have hsplit : w ++ [c] = (before ++ (operand ++ after')) ++ [y] := by simpa using h.split
  obtain ⟨hw, hc⟩ := List.append_inj' hsplit rfl
  cases hc
  refine ⟨after', List.concat_eq_append, hw, h.ne_nil, h.chars, h.left, ?_⟩
  intro d hd
  apply h.right
  cases after' with
  | nil => cases hd
  | cons z after' => exact hd

/-- An operand of a longer text is the last one with its new character, or it was there
before. -/
theorem IsOperand.of_append {w before operand after : List Char} {c : Char}
    (h : IsOperand (w ++ [c]) before operand after) :
    (isOperandChar c = true ∧ operand = lastOperand w ++ [c]) ∨
      ∃ after', IsOperand w before operand after' := by
  by_cases hafter : after = []
  · subst hafter
    have hsplit := h.split
    rcases List.eq_nil_or_concat operand with hnil | ⟨operand', y, rfl⟩
    · exact absurd hnil h.ne_nil
    · have h' : w ++ [c] = (before ++ operand') ++ [y] := by simpa using hsplit
      obtain ⟨rfl, hc⟩ := List.append_inj' h' rfl
      cases hc
      refine Or.inl ⟨h.chars c (by simp), ?_⟩
      rw [lastOperand_of_split (fun d hd => h.chars d (by simp [hd])) h.left]
      simp
  · obtain ⟨after', _, h'⟩ := h.of_append_complete hafter
    exact Or.inr ⟨after', h'⟩

theorem Typable.nil (precision : Nat) : Typable precision [] where
  typed := by simp
  closes_le p hp := by simp [List.prefix_nil.mp hp]
  leading := by simp
  apart := by simp
  closing := by simp
  operands before operand after h := by
    have hh := h.split
    simp only [List.nil_eq, List.append_eq_nil_iff] at hh
    exact absurd hh.2.1 h.ne_nil

theorem Typable.of_append {precision : Nat} {w : List Char} {c : Char}
    (h : Typable precision (w ++ [c])) : Typable precision w where
  typed d hd := h.typed d (List.mem_append_left _ hd)
  closes_le p hp := h.closes_le p (hp.trans (List.prefix_append _ _))
  leading u d v hw := h.leading u d (v ++ [c]) (by simp [hw])
  apart u d v hw := h.apart u d (v ++ [c]) (by simp [hw])
  closing u v hw := h.closing u (v ++ [c]) (by simp [hw])
  operands before operand after ho := by
    rcases ho.append c with ⟨_, ho'⟩ | ho'
    · exact (h.operands _ _ _ ho').of_append
    · exact h.operands _ _ _ ho'

theorem Typable.mayFollow {precision : Nat} {w : List Char} {c : Char}
    (h : Typable precision (w ++ [c])) : MayFollow precision w c where
  typed := h.typed c (by simp)
  open_group hc := by
    subst hc
    have hh := h.closes_le _ (List.prefix_refl _)
    have hc := closes_closing brackets []
    have ho := opens_closing brackets []
    rw [opens_append, closes_append] at hh
    simp only [brackets] at hh hc ho
    simp only [hc, ho, closes_nil, opens_nil] at hh
    exact hh
  leading := h.leading w c [] rfl
  apart := h.apart w c [] rfl
  closing hc := by
    subst hc
    exact h.closing w [] rfl
  operand hc := by
    obtain ⟨before, ho⟩ := exists_isOperand_last w hc
    exact h.operands _ _ _ ho

theorem Typable.append {precision : Nat} {w : List Char} {c : Char} (h : Typable precision w)
    (hc : MayFollow precision w c) : Typable precision (w ++ [c]) where
  typed d hd := by
    rcases List.mem_append.mp hd with hd | hd
    · exact h.typed d hd
    · rw [List.mem_singleton.mp hd]
      exact hc.typed
  closes_le p hp := by
    rcases List.prefix_concat_iff.mp hp with rfl | hp
    · have hle := h.closes_le w (List.prefix_refl w)
      rw [opens_append, closes_append]
      by_cases hclose : c = ')'
      · have hlt := hc.open_group hclose
        have hone : brackets.closes [c] ≤ 1 := List.count_le_length
        omega
      · have hzero : brackets.closes [c] = 0 := closes_cons_other hclose
        omega
    · exact h.closes_le p hp
  leading u d v hw := by
    rcases split_append_singleton hw with ⟨rfl, rfl, rfl⟩ | ⟨v', rfl, rfl⟩
    · exact hc.leading
    · exact h.leading u d v' rfl
  apart u d v hw := by
    rcases split_append_singleton hw with ⟨rfl, rfl, rfl⟩ | ⟨v', rfl, rfl⟩
    · exact hc.apart
    · exact h.apart u d v' rfl
  closing u v hw := by
    rcases split_append_singleton hw with ⟨rfl, rfl, rfl⟩ | ⟨v', rfl, rfl⟩
    · exact hc.closing rfl
    · exact h.closing u v' rfl
  operands before operand after ho := by
    rcases ho.of_append with ⟨hop, rfl⟩ | ⟨after', ho'⟩
    · exact hc.operand hop
    · exact h.operands _ _ _ ho'

theorem Typable.initial {precision : Nat} {u w : List Char} (h : Typable precision w)
    (hu : u <+: w) : Typable precision u := by
  obtain ⟨v, rfl⟩ := hu
  induction v using List.reverseRecOn with
  | nil => simpa using h
  | append_singleton v c ih =>
    rw [← List.append_assoc] at h
    exact ih h.of_append

end PocketCalculator.Keypad
