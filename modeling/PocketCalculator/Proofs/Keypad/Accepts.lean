import PocketCalculator.Proofs.Keypad.Typable
import PocketCalculator.Proofs.Operand

/-!
# Which keys are accepted

After a typable text a key is accepted exactly when its character may follow, so the rules
of the keypad are those of the language. A keypad of lower precision accepts no more.
-/
namespace PocketCalculator.Keypad

open Brackets

/-! ## Characters -/

theorem glyph_eq_minus {op : Operator} : op.glyph = '-' ↔ op = .subtract := by
  cases op <;> simp [Operator.glyph]

theorem not_isGlyph_of_isOperandChar {c : Char} (h : isOperandChar c = true) : ¬IsGlyph c := by
  rintro ⟨op, rfl⟩
  cases op <;> cases h

theorem not_isGlyph_parens : ¬IsGlyph '(' ∧ ¬IsGlyph ')' := by
  constructor <;> rintro ⟨op, h⟩ <;> cases op <;> cases h

theorem ofGlyph?_isNone {c : Char} (h : IsTyped c) :
    (Operator.ofGlyph? c).isNone = true ↔ ¬IsGlyph c := by
  rcases h with h | ⟨op, rfl⟩ | rfl | rfl
  · simp [ofGlyph?_of_isOperandChar h, not_isGlyph_of_isOperandChar h]
  · have hg : IsGlyph op.glyph := ⟨op, rfl⟩
    simp [Operator.ofGlyph?_glyph, hg]
  · simpa [Operator.ofGlyph?] using not_isGlyph_parens.1
  · simpa [Operator.ofGlyph?] using not_isGlyph_parens.2

theorem utf8Size_of_isTyped {c : Char} (h : IsTyped c) : c.utf8Size = 1 := by
  rcases h with h | ⟨op, rfl⟩ | rfl | rfl
  · simp only [isOperandChar, Bool.or_eq_true, beq_iff_eq] at h
    rcases h with h | rfl
    · rw [Char.utf8Size_eq_one_iff]
      rw [Char.isDigit_iff_toNat] at h
      have hh : c.toNat ≤ 57 := h.2
      exact UInt32.le_iff_toNat_le.mpr (hh.trans (by decide))
    · rfl
  · cases op <;> rfl
  · rfl
  · rfl

/-- The operand at the end can be cut off unless the character before it is encoded in several
bytes. -/
theorem currentOperand_eq (w : List Char) : currentOperand w =
    match (w.rdropWhile isOperandChar).getLast? with
    | some c => if c.utf8Size = 1 then .ok (lastOperand w) else .error ⟨c⟩
    | none => .ok (lastOperand w) := by
  rw [List.rdropWhile, List.getLast?_reverse]
  rfl

theorem currentOperand_of_utf8Size {w : List Char} (h : ∀ c ∈ w, c.utf8Size = 1) :
    currentOperand w = .ok (lastOperand w) := by
  rw [currentOperand_eq]
  split
  · rename_i c hc
    exact if_pos (h c ((List.rdropWhile_prefix _ w).subset (List.mem_of_getLast? hc)))
  · rfl

theorem currentOperand_of_typed {w : List Char} (h : ∀ c ∈ w, IsTyped c) :
    currentOperand w = .ok (lastOperand w) :=
  currentOperand_of_utf8Size fun c hc => utf8Size_of_isTyped (h c hc)

/-! ## Which characters may follow -/

variable {precision : Nat} {w : List Char}

theorem mayFollow_operandChar {c : Char} (hc : isOperandChar c = true) :
    MayFollow precision w c ↔ Admits precision (lastOperand w ++ [c]) := by
  refine ⟨fun h => h.operand hc, fun h => ⟨Or.inl hc, ?_, ?_, ?_, ?_, fun _ => h⟩⟩
  · rintro rfl
    cases hc
  · exact fun hg => absurd hg (not_isGlyph_of_isOperandChar hc)
  · exact fun hg => absurd hg (not_isGlyph_of_isOperandChar hc)
  · rintro rfl
    cases hc

theorem mayFollow_glyph (op : Operator) :
    MayFollow precision w op.glyph ↔
      (w = [] ∨ w.getLast? = some '(' → op = .subtract) ∧ ∀ d ∈ w.getLast?, ¬IsGlyph d := by
  have hg : IsGlyph op.glyph := ⟨op, rfl⟩
  constructor
  · exact fun h => ⟨fun hw => glyph_eq_minus.mp (h.leading hg hw), h.apart hg⟩
  · rintro ⟨hleading, hapart⟩
    refine ⟨Or.inr (Or.inl hg), ?_, ?_, fun _ => hapart, ?_, ?_⟩
    · intro hclose
      rw [hclose] at hg
      exact absurd hg not_isGlyph_parens.2
    · exact fun _ hw => glyph_eq_minus.mpr (hleading hw)
    · intro hclose
      rw [hclose] at hg
      exact absurd hg not_isGlyph_parens.2
    · exact fun hc => absurd hg (not_isGlyph_of_isOperandChar hc)

theorem mayFollow_openParen : MayFollow precision w '(' where
  typed := Or.inr (Or.inr (Or.inl rfl))
  open_group h := by cases h
  leading h := absurd h not_isGlyph_parens.1
  apart h := absurd h not_isGlyph_parens.1
  closing h := by cases h
  operand h := by cases h

theorem mayFollow_closeParen :
    MayFollow precision w ')' ↔ brackets.closes w < brackets.opens w ∧
      ∃ d ∈ w.getLast?, endsExpression d = true := by
  refine ⟨fun h => ⟨h.open_group rfl, h.closing rfl⟩, fun h => ?_⟩
  exact ⟨Or.inr (Or.inr (Or.inr rfl)), fun _ => h.1, fun hg => absurd hg not_isGlyph_parens.2,
    fun hg => absurd hg not_isGlyph_parens.2, fun _ => h.2, fun hc => by cases hc⟩

theorem Typable.admits_lastOperand (h : Typable precision w) :
    Admits precision (lastOperand w) := by
  by_cases hnil : lastOperand w = []
  · rw [hnil]
    exact admits_of_not_mem precision (by simp)
  · obtain ⟨before, hw, hleft⟩ := exists_before_lastOperand w
    exact h.operands before _ [] ⟨by simpa using hw, hnil,
      fun c hc => isOperandChar_of_mem_lastOperand hc, hleft, by simp⟩

/-! ## The rules -/

/-- How many groups a text leaves open. -/
def unclosed (w : List Char) : Nat := brackets.opens w - brackets.closes w

theorem Key.isDigit_char {d : Nat} {c : Char} (h : (Key.digit d).char? = some c) :
    c.isDigit = true := by
  simp only [Key.char?] at h
  split at h
  · rename_i hd
    cases h
    revert d
    decide
  · cases h

theorem accepts_operator_iff (hw : Typable precision w) (groups : Nat) (op : Operator) :
    accepts precision w groups (.operator op) = .ok true ↔
      (w = [] ∨ w.getLast? = some '(' → op = .subtract) ∧ ∀ d ∈ w.getLast?, ¬IsGlyph d := by
  rw [accepts]
  cases hlast : w.getLast? with
  | none => simp [List.getLast?_eq_none_iff.mp hlast]
  | some d =>
    have hne : w ≠ [] := by
      rintro rfl
      cases hlast
    by_cases hd : d = '('
    · subst hd
      simp [hne, not_isGlyph_parens.1]
    · have hd' := ofGlyph?_isNone (hw.typed d (List.mem_of_getLast? hlast))
      simp [hne, hd, hd']

/-- After a typable text a key is accepted exactly when its character may follow. -/
theorem accepts_iff_mayFollow (hw : Typable precision w) {key : Key} {c : Char}
    (hkey : key.char? = some c) :
    accepts precision w (unclosed w) key = .ok true ↔ MayFollow precision w c := by
  cases key with
  | digit d =>
    have hc := Key.isDigit_char hkey
    rw [mayFollow_operandChar (isOperandChar_of_isDigit hc),
      admits_append_digit hc hw.admits_lastOperand, accepts, currentOperand_of_typed hw.typed]
    exact ⟨fun h => Except.ok.inj h, fun h => congrArg Except.ok h⟩
  | point =>
    cases hkey
    rw [mayFollow_operandChar rfl, admits_append_point, accepts,
      currentOperand_of_typed hw.typed]
    by_cases hp : precision = 0
    · simp [hp]
    · by_cases hm : '.' ∈ lastOperand w <;> simp [hp, hm, pure, Except.pure, bind, Except.bind]
  | operator op =>
    cases hkey
    rw [mayFollow_glyph, accepts_operator_iff hw]
  | openParen =>
    cases hkey
    exact ⟨fun _ => mayFollow_openParen, fun _ => rfl⟩
  | closeParen =>
    cases hkey
    rw [mayFollow_closeParen, accepts, unclosed]
    simp only [Nat.sub_pos_iff_lt]
    cases hlast : w.getLast? with
    | none => simp
    | some d => simp
  | clear => cases hkey
  | backspace => cases hkey
  | equals => cases hkey

theorem hasRoom_mono {precision' : Nat} {operand : List Char} (hle : precision ≤ precision')
    (h : hasRoom precision operand = true) : hasRoom precision' operand = true := by
  simp only [hasRoom, Bool.or_eq_true, decide_eq_true_eq] at h ⊢
  exact h.imp_right fun h => h.trans hle

theorem accepts_mono {precision' : Nat} (hle : precision ≤ precision') {g : Nat} {key : Key}
    (h : accepts precision w g key = .ok true) : accepts precision' w g key = .ok true := by
  cases key with
  | digit d =>
    rw [accepts] at h ⊢
    cases hc : currentOperand w with
    | error inside => simp [hc, bind, Except.bind] at h
    | ok operand =>
      simp only [hc, bind, Except.bind, pure, Except.pure, Except.ok.injEq] at h ⊢
      exact hasRoom_mono hle h
  | point =>
    rw [accepts] at h ⊢
    by_cases hp : precision = 0
    · simp [hp] at h
    · rw [if_neg hp] at h
      rwa [if_neg (by omega)]
  | _ => exact h

end PocketCalculator.Keypad
