import Mathlib.Data.String.Basic
import PocketCalculator.Proofs.Keypad.Reachable

/-!
# Restored texts

A keypad can be restored with any text. The operand at its end is taken to begin one byte after the
beginning of the last character that no operand has, which is where it begins exactly if that
character is encoded in one byte. Otherwise the text cannot be cut there, and the keys whose rule
looks at the operand fail.
-/
namespace PocketCalculator.Keypad

open String (utf8Len utf8Len_append utf8Len_le_of_prefix)

variable {text u v before after operand w : List Char} {c : Char}

/-! ## Places in an encoded text -/

/-- No character of the text is encoded across this many bytes. -/
def IsBoundary (text : List Char) (index : Nat) : Prop :=
  String.Pos.Raw.IsValid (String.ofList text) ⟨index⟩

theorem isBoundary_iff {index : Nat} : IsBoundary text index ↔
    ∃ before after, text = before ++ after ∧ utf8Len before = index := by
  rw [IsBoundary, String.Pos.Raw.isValid_ofList]
  constructor
  · rintro ⟨i, hindex⟩
    rw [String.utf8ByteSize_ofList] at hindex
    exact ⟨_, _, (List.take_append_drop i text).symm, hindex.symm⟩
  · rintro ⟨before, after, rfl, rfl⟩
    exact ⟨before.length, by rw [List.take_left, String.utf8ByteSize_ofList]⟩

/-- One byte after the beginning of a character is a boundary only if that is all it is encoded
in. -/
theorem isBoundary_succ_iff :
    IsBoundary (before ++ c :: after) (utf8Len before + 1) ↔ c.utf8Size = 1 := by
  rw [isBoundary_iff]
  constructor
  · rintro ⟨u, v, hsplit, hlength⟩
    have hu : u <+: before ++ [c] ++ after := ⟨v, by rw [← hsplit]; simp⟩
    rcases List.prefix_or_prefix_of_prefix hu (List.prefix_append _ _) with hshort | hlong
    · rcases List.prefix_concat_iff.mp hshort with rfl | hshort
      · simpa using hlength
      · have hle := utf8Len_le_of_prefix hshort
        omega
    · have hle := utf8Len_le_of_prefix hlong
      have hpos := c.utf8Size_pos
      rw [utf8Len_append, String.utf8Len_cons] at hle
      omega
  · intro hsize
    exact ⟨before ++ [c], after, by simp, by simp [hsize]⟩

/-! ## The operand at the end -/

/-- The longest run of digits and points at the end of a text. -/
structure IsLastOperand (w operand : List Char) : Prop where
  suffix : operand <:+ w
  chars : ∀ c ∈ operand, isOperandChar c = true
  longest : ∀ u, u <:+ w → (∀ c ∈ u, isOperandChar c = true) → u <:+ operand

theorem lastOperand_append_of_chars (w : List Char) (h : ∀ c ∈ u, isOperandChar c = true) :
    lastOperand (w ++ u) = lastOperand w ++ u := by
  induction u using List.reverseRecOn with
  | nil => simp
  | append_singleton u c ih =>
    rw [← List.append_assoc, lastOperand_append, if_pos (h c (by simp)),
      ih fun d hd => h d (by simp [hd]), List.append_assoc]

theorem isLastOperand_lastOperand (w : List Char) : IsLastOperand w (lastOperand w) where
  suffix := List.rtakeWhile_suffix isOperandChar w
  chars _ := isOperandChar_of_mem_lastOperand
  longest := by
    rintro u ⟨before, rfl⟩ hu
    rw [lastOperand_append_of_chars before hu]
    exact List.suffix_append _ _

theorem IsLastOperand.eq_lastOperand (h : IsLastOperand w operand) : operand = lastOperand w := by
  have hlast := isLastOperand_lastOperand w
  exact (hlast.longest operand h.suffix h.chars).eq_of_length_le
    (h.longest _ hlast.suffix hlast.chars).length_le

/-- Where the operand at the end is taken to begin: one byte after the beginning of the last
character that no operand has, or at the beginning of the text. -/
def operandStart (w : List Char) : Nat :=
  match (w.rdropWhile isOperandChar).getLast? with
  | some _ => utf8Len (w.rdropWhile isOperandChar).dropLast + 1
  | none => 0

theorem operandStart_of_split (hc : isOperandChar c = false)
    (hafter : ∀ d ∈ after, isOperandChar d = true) :
    operandStart (before ++ c :: after) = utf8Len before + 1 := by
  have hdrop : (before ++ c :: after).rdropWhile isOperandChar = before ++ [c] := by
    have hreverse : ∀ d ∈ after.reverse, isOperandChar d = true :=
      fun d hd => hafter d (List.mem_reverse.mp hd)
    rw [List.rdropWhile, List.reverse_append, List.reverse_cons, List.append_assoc,
      List.dropWhile_append_of_pos hreverse, List.singleton_append,
      List.dropWhile_cons_of_neg (by simp [hc]), List.reverse_cons, List.reverse_reverse]
  rw [operandStart, hdrop, List.getLast?_concat, List.dropLast_concat]

/-- A text is an operand, or a character that no operand has stands before the operand at its
end. -/
theorem operandStart_cases (w : List Char) :
    (lastOperand w = w ∧ operandStart w = 0 ∧ currentOperand w = .ok w) ∨
    ∃ u c, w = u ++ c :: lastOperand w ∧ isOperandChar c = false ∧
      operandStart w = utf8Len u + 1 ∧
      currentOperand w = if c.utf8Size = 1 then .ok (lastOperand w) else .error ⟨c⟩ := by
  have hsplit : w.rdropWhile isOperandChar ++ lastOperand w = w :=
    List.rdropWhile_append_rtakeWhile
  cases hlast : (w.rdropWhile isOperandChar).getLast? with
  | none =>
    rw [List.getLast?_eq_none_iff.mp hlast, List.nil_append] at hsplit
    exact Or.inl ⟨hsplit, by rw [operandStart, hlast], by rw [currentOperand_eq, hlast, hsplit]⟩
  | some c =>
    have hc : isOperandChar c = false := by
      obtain ⟨hne, rfl⟩ := List.mem_getLast?_eq_getLast hlast
      simpa using List.rdropWhile_last_not isOperandChar w hne
    obtain ⟨u, hu⟩ := List.getLast?_eq_some_iff.mp hlast
    have hw : w = u ++ c :: lastOperand w := by
      conv_lhs => rw [← hsplit, hu, List.append_assoc, List.singleton_append]
    refine Or.inr ⟨u, c, hw, hc, ?_, ?_⟩
    · rw [operandStart, hlast, hu, List.dropLast_concat]
    · rw [currentOperand_eq, hlast]

/-- The text can be cut where the operand is taken to begin exactly if the operand does begin
there. -/
theorem isBoundary_operandStart_iff :
    IsBoundary w (operandStart w) ↔ currentOperand w = .ok (lastOperand w) := by
  rcases operandStart_cases w with ⟨hwhole, hstart, hread⟩ | ⟨u, c, hw, -, hstart, hread⟩
  · rw [hstart, hread, hwhole]
    exact iff_of_true (isBoundary_iff.mpr ⟨[], w, rfl, rfl⟩) rfl
  · have hboundary : IsBoundary w (utf8Len u + 1) ↔ c.utf8Size = 1 := by
      conv_lhs => rw [hw]
      exact isBoundary_succ_iff
    rw [hstart, hread, hboundary]
    split
    · rename_i hsize
      exact iff_of_true hsize rfl
    · rename_i hsize
      exact iff_of_false hsize nofun

/-- The text can be cut where the operand is taken to begin exactly if the last character that no
operand has is encoded in one byte, or there is none. -/
theorem isBoundary_operandStart_iff_oneByte : IsBoundary w (operandStart w) ↔
    ∀ before c after, w = before ++ c :: after → isOperandChar c = false →
      (∀ d ∈ after, isOperandChar d = true) → c.utf8Size = 1 := by
  constructor
  · rintro h before c after rfl hc hafter
    rw [operandStart_of_split hc hafter] at h
    exact isBoundary_succ_iff.mp h
  · intro h
    rw [isBoundary_operandStart_iff]
    rcases operandStart_cases w with ⟨hwhole, -, hread⟩ | ⟨u, c, hw, hc, -, hread⟩
    · rw [hread, hwhole]
    · rw [hread, if_pos (h u c _ hw hc (isLastOperand_lastOperand w).chars)]

theorem eq_lastOperand_of_currentOperand (h : currentOperand w = .ok operand) :
    operand = lastOperand w ∧
      ∃ before, w = before ++ operand ∧ utf8Len before = operandStart w := by
  rcases operandStart_cases w with ⟨hwhole, hstart, hread⟩ | ⟨u, c, hw, -, hstart, hread⟩
  · rw [hread] at h
    cases h
    exact ⟨hwhole.symm, [], rfl, hstart.symm⟩
  · rw [hread] at h
    split at h
    · rename_i hsize
      cases h
      refine ⟨rfl, u ++ [c], ?_, ?_⟩
      · rw [List.append_assoc]
        exact hw
      · rw [hstart, utf8Len_append, String.utf8Len_cons, hsize, String.utf8Len_nil]
    · cases h

theorem currentOperand_eq_ok_iff : currentOperand w = .ok operand ↔
    IsBoundary w (operandStart w) ∧ IsLastOperand w operand := by
  rw [isBoundary_operandStart_iff]
  constructor
  · intro h
    obtain ⟨rfl, -⟩ := eq_lastOperand_of_currentOperand h
    exact ⟨h, isLastOperand_lastOperand w⟩
  · rintro ⟨h, hlast⟩
    rwa [hlast.eq_lastOperand]

/-! ## Keys that look at the operand -/

/-- Whether the rule for the key looks at the operand at the end. -/
def ExaminesOperand (precision : Nat) (key : Key) : Prop :=
  (∃ value, value < 10 ∧ key = .digit value) ∨ precision ≠ 0 ∧ key = .point

variable {k : Keypad} {s : Settings} {key : Key} {precision groups : Nat}

theorem exists_bind_iff {ε α β : Type} {x : Except ε α} {f : α → Except ε β}
    (hf : ∀ a, ∃ b, f a = .ok b) : (∃ b, x.bind f = .ok b) ↔ ∃ a, x = .ok a := by
  cases x with
  | error fault => exact iff_of_false (by rintro ⟨b, ⟨⟩⟩) (by rintro ⟨a, ⟨⟩⟩)
  | ok a => exact iff_of_true (hf a) ⟨a, rfl⟩

/-- A rule that looks at the operand at the end needs it, and no other rule does. -/
theorem exists_accepts_iff (hkey : key.char? = some c) :
    (∃ accepted, accepts precision w groups key = .ok accepted) ↔
      (ExaminesOperand precision key → ∃ operand, currentOperand w = .ok operand) := by
  cases key with
  | digit value =>
    have hvalue : value < 10 := by
      by_contra hge
      rw [Key.char?, if_neg hge] at hkey
      cases hkey
    have hexamines : ExaminesOperand precision (.digit value) := Or.inl ⟨value, hvalue, rfl⟩
    rw [imp_iff_right hexamines]
    exact exists_bind_iff fun operand => ⟨_, rfl⟩
  | point =>
    by_cases hzero : precision = 0
    · have hnot : ¬ExaminesOperand precision .point := by
        rintro (⟨value, -, ⟨⟩⟩ | ⟨hne, -⟩)
        exact hne hzero
      rw [accepts, if_pos hzero]
      exact iff_of_true ⟨_, rfl⟩ fun h => absurd h hnot
    · have hexamines : ExaminesOperand precision .point := Or.inr ⟨hzero, rfl⟩
      rw [imp_iff_right hexamines, accepts, if_neg hzero]
      exact exists_bind_iff fun operand => ⟨_, rfl⟩
  | operator op => exact iff_of_true ⟨_, rfl⟩ (by rintro (⟨value, -, ⟨⟩⟩ | ⟨-, ⟨⟩⟩))
  | openParen => exact iff_of_true ⟨_, rfl⟩ (by rintro (⟨value, -, ⟨⟩⟩ | ⟨-, ⟨⟩⟩))
  | closeParen => exact iff_of_true ⟨_, rfl⟩ (by rintro (⟨value, -, ⟨⟩⟩ | ⟨-, ⟨⟩⟩))
  | clear => cases hkey
  | backspace => cases hkey
  | equals => cases hkey

theorem exists_press_of_no_char (hkey : key.char? = none) (k : Keypad) (s : Settings) :
    ∃ k', k.press s key = .ok k' := by
  cases key with
  | digit value =>
    have hpress : k.press s (.digit value) = k.typeKey s (.digit value) := rfl
    exact ⟨k, by rw [hpress, typeKey, hkey]⟩
  | clear => exact ⟨_, rfl⟩
  | backspace => exact ⟨_, rfl⟩
  | equals => exact ⟨_, rfl⟩
  | _ => cases hkey

theorem not_examinesOperand_of_no_char (hkey : key.char? = none) :
    ¬ExaminesOperand precision key := by
  rintro (⟨value, hvalue, rfl⟩ | ⟨-, rfl⟩)
  · rw [Key.char?, if_pos hvalue] at hkey
    cases hkey
  · cases hkey

/-- Pressing a key gives a keypad, unless its rule looks at an operand that cannot be cut off. -/
theorem exists_press_iff : (∃ k', k.press s key = .ok k') ↔
    (ExaminesOperand s.precision key → ∃ operand, currentOperand k.continued.1 = .ok operand) := by
  cases hkey : key.char? with
  | none =>
    exact iff_of_true (exists_press_of_no_char hkey k s) fun h =>
      absurd h (not_examinesOperand_of_no_char hkey)
  | some c =>
    have haccepts : (∃ accepted, accepts s.precision k.continued.1 k.continued.2 key =
        .ok accepted) ↔ _ := exists_accepts_iff hkey
    rw [← haccepts, press_of_char hkey, typeKey_of_char hkey]
    refine exists_bind_iff fun accepted => ?_
    cases accepted with
    | true => exact ⟨_, rfl⟩
    | false => exact ⟨_, rfl⟩

theorem openGroups_erase_le (k : Keypad) : k.erase.openGroups ≤ k.openGroups + 1 := by
  unfold erase
  dsimp only
  split <;> omega

theorem openGroups_submit (s : Settings) (k : Keypad) :
    (k.submit s).openGroups = k.openGroups := by
  unfold submit
  dsimp only
  split <;> rfl

/-- No key opens more than one group. -/
theorem openGroups_le_of_press {k' : Keypad} (h : k.press s key = .ok k') :
    k'.openGroups ≤ k.openGroups + 1 := by
  cases hkey : key.char? with
  | none =>
    cases key with
    | digit value =>
      have hpress : k.press s (.digit value) = k.typeKey s (.digit value) := rfl
      rw [hpress, typeKey, hkey] at h
      cases h
      exact Nat.le_succ _
    | clear =>
      cases h
      exact Nat.zero_le _
    | backspace =>
      cases h
      exact k.openGroups_erase_le
    | equals =>
      cases h
      rw [openGroups_submit]
      omega
    | _ => cases hkey
  | some c =>
    rw [press_of_char hkey, typeKey_of_char hkey] at h
    obtain ⟨accepted, -, htyped⟩ := Reader.bind_eq_ok h
    cases accepted with
    | true =>
      cases htyped
      exact (groupsAfter_le k.continued.2 key).trans (Nat.add_le_add_right k.continued_groups_le 1)
    | false =>
      cases htyped
      exact Nat.le_succ _

/-- Whatever the text holds, its longest run of digits and points at the end is cut off if the text
can be cut where the operand is taken to begin. That is so exactly if the last character that no
operand has is encoded in one byte, or there is none. Otherwise the keys whose rule looks at the
operand fail. No others do, as long as the open groups can be counted. -/
theorem operands_are_cut_off_at_boundaries (k : Keypad) :
    let base := k.continued.1
    (∀ operand, currentOperand base = .ok operand ↔
      IsBoundary base (operandStart base) ∧ IsLastOperand base operand) ∧
    (∀ operand, currentOperand base = .ok operand →
      ∃ before, base = before ++ operand ∧ utf8Len before = operandStart base) ∧
    (IsBoundary base (operandStart base) ↔ ∀ before c after, base = before ++ c :: after →
      isOperandChar c = false → (∀ d ∈ after, isOperandChar d = true) → c.utf8Size = 1) ∧
    (∀ s key, ExaminesOperand s.precision key →
      ((∃ k', k.press s key = .ok k') ↔ IsBoundary base (operandStart base))) ∧
    (k.openGroups + 1 < UInt64.size → ∀ s key, ¬ExaminesOperand s.precision key →
      ∃ k', k.press s key = .ok k' ∧ k'.openGroups < UInt64.size) := by
  intro base
  refine ⟨fun operand => currentOperand_eq_ok_iff,
    fun operand h => (eq_lastOperand_of_currentOperand h).2, isBoundary_operandStart_iff_oneByte,
    fun s key hexamines => ?_, fun hgroups s key hother => ?_⟩
  · rw [exists_press_iff, imp_iff_right hexamines, isBoundary_operandStart_iff]
    constructor
    · rintro ⟨operand, h⟩
      obtain ⟨rfl, -⟩ := eq_lastOperand_of_currentOperand h
      exact h
    · exact fun h => ⟨_, h⟩
  · obtain ⟨k', hpress⟩ := exists_press_iff.mpr fun hexamines => absurd hexamines hother
    exact ⟨k', hpress, (openGroups_le_of_press hpress).trans_lt hgroups⟩

/-- A digit after a restored multiplication sign. -/
theorem operands_are_cut_off_at_boundaries_times_sign :
    let k : Keypad := ⟨"2×".toList, .nothing, 0⟩
    IsLastOperand k.input [] ∧ operandStart k.input = 2 ∧ ¬IsBoundary k.input 2 ∧
      k.press .default (.digit 3) = .error ⟨'×'⟩ := by
  intro k
  have hinput : k.input = ['2'] ++ '×' :: [] := by decide +kernel
  have hlast : lastOperand k.input = [] := by decide +kernel
  have hboundary : IsBoundary k.input 2 ↔ '×'.utf8Size = 1 := by
    rw [hinput]
    exact isBoundary_succ_iff
  refine ⟨hlast ▸ isLastOperand_lastOperand k.input, by decide +kernel, ?_, by decide +kernel⟩
  rw [hboundary]
  decide

end PocketCalculator.Keypad
