import PocketCalculator.Proofs.Keypad.Reachable

/-!
# Typed keys are undone

A key that is refused leaves the keypad as it was, and one that is accepted adds its character to
what typing goes on from. Backspace takes the character away again and counts the open groups back,
so that just this is left.
-/
namespace PocketCalculator.Keypad

variable {k : Keypad} {s : Settings} {w : List Char} {key : Key} {c : Char}
  {precision groups : Nat}

theorem utf8Size_of_toNat_lt (h : c.toNat < 128) : c.utf8Size = 1 :=
  Char.utf8Size_eq_one_iff.mpr (Nat.le_of_lt_succ h)

theorem Key.ne_paren_of_digit {d : Nat} (hkey : (Key.digit d).char? = some c) :
    c ≠ '(' ∧ c ≠ ')' := by
  have hc := Key.isDigit_char hkey
  constructor <;> rintro rfl <;> cases hc

theorem pos_of_accepts_closeParen (h : accepts precision w groups .closeParen = .ok true) :
    0 < groups := by
  have hrule := Except.ok.inj h
  rw [Bool.and_eq_true, decide_eq_true_eq] at hrule
  exact hrule.1

/-- The groups counted for a key are counted back when its character is dropped. -/
theorem erase_append (hkey : key.char? = some c)
    (haccepts : accepts precision w groups key = .ok true) (output : Output) :
    erase ⟨w ++ [c], output, groupsAfter groups key⟩ = ⟨w, output, groups⟩ := by
  rw [erase, List.dropLast_concat, List.getLast?_concat]
  cases key with
  | openParen =>
    cases hkey
    rfl
  | closeParen =>
    cases hkey
    have hpos := pos_of_accepts_closeParen haccepts
    simp only [groupsAfter, Nat.sub_add_cancel hpos]
  | digit d =>
    obtain ⟨hopen, hclose⟩ := Key.ne_paren_of_digit hkey
    simp [hopen, hclose, groupsAfter]
  | point =>
    cases hkey
    rfl
  | operator op =>
    cases hkey
    cases op <;> rfl
  | clear => cases hkey
  | backspace => cases hkey
  | equals => cases hkey

/-- The count of open groups goes up by one for an opening parenthesis and down by one for a
closing one, which some group is open for. -/
theorem groupsAfter_eq (haccepts : accepts precision w groups key = .ok true) :
    (groupsAfter groups key : ℤ) =
      groups + if key = .openParen then 1 else if key = .closeParen then -1 else 0 := by
  cases key with
  | closeParen =>
    have hpos := pos_of_accepts_closeParen haccepts
    rw [if_neg (by decide), if_pos rfl, groupsAfter]
    omega
  | _ => simp [groupsAfter]

/-- A key that types a character leaves the keypad as it was, or it adds the character to what
typing goes on from; then pressing backspace leaves just that. -/
theorem typed_keys_are_undone (hkey : key.char? = some c)
    (hascii : ∀ d ∈ k.continued.1, d.toNat < 128) (hgroups : k.openGroups + 1 < UInt64.size) :
    let base := k.continued.1
    let groups := k.continued.2
    ∃ accepted, accepts s.precision base groups key = .ok accepted ∧
      (accepted = false → k.press s key = .ok k) ∧
      (accepted = true → ∃ next : Nat, next < UInt64.size ∧
        (next : ℤ) =
          groups + (if key = .openParen then 1 else if key = .closeParen then -1 else 0) ∧
        k.press s key = .ok ⟨base ++ [c], .nothing, next⟩ ∧
        ∀ t, press t ⟨base ++ [c], .nothing, next⟩ .backspace = .ok ⟨base, .nothing, groups⟩) := by
  intro base groups
  have hoperand := currentOperand_of_utf8Size fun d hd => utf8Size_of_toNat_lt (hascii d hd)
  obtain ⟨accepted, haccepts⟩ := exists_accepts hoperand s.precision k.continued.2 key
  have hpress := press_of_char hkey s k
  rw [typeKey_of_char hkey, haccepts] at hpress
  refine ⟨accepted, haccepts, ?_, ?_⟩
  · rintro rfl
    exact hpress
  · rintro rfl
    refine ⟨groupsAfter k.continued.2 key, ?_, groupsAfter_eq haccepts, hpress, fun t => ?_⟩
    · have hle := groupsAfter_le k.continued.2 key
      have hcontinued := k.continued_groups_le
      omega
    · exact congrArg Except.ok (erase_append hkey haccepts .nothing)

/-- A group is closed while an error is shown, and opened again. After a result the same key is
refused, since no group is open there. -/
theorem typed_keys_are_undone_closing_group :
    let shown : Keypad := ⟨"(1".toList, .fault .divisionByZero, 1⟩
    let result : Keypad := ⟨"(1".toList, .value "1".toList, 1⟩
    shown.press .default .closeParen = .ok ⟨"(1)".toList, .nothing, 0⟩ ∧
      press .default ⟨"(1)".toList, .nothing, 0⟩ .backspace = .ok ⟨"(1".toList, .nothing, 1⟩ ∧
      result.press .default .closeParen = .ok result := by
  intro shown result
  have hkey : Key.closeParen.char? = some ')' := rfl
  have haccepts : accepts 1 "(1".toList 1 .closeParen = .ok true := by decide +kernel
  have hrefuses : accepts 1 "1".toList 0 .closeParen = .ok false := by decide +kernel
  have hshownAscii : ∀ d ∈ shown.continued.1, d.toNat < 128 := by
    simp [shown, continued]
  have hresultAscii : ∀ d ∈ result.continued.1, d.toNat < 128 := by
    simp [result, continued]
  obtain ⟨accepted, hshown, -, htyped⟩ :=
    typed_keys_are_undone (k := shown) (s := .default) hkey hshownAscii (by decide)
  obtain rfl : true = accepted := Except.ok.inj (haccepts.symm.trans hshown)
  obtain ⟨next, -, hnext, hpress, hback⟩ := htyped rfl
  obtain rfl : next = 0 := by simpa [shown, continued] using hnext
  obtain ⟨accepted', hresult, hsame, -⟩ :=
    typed_keys_are_undone (k := result) (s := .default) hkey hresultAscii (by decide)
  obtain rfl : false = accepted' := Except.ok.inj (hrefuses.symm.trans hresult)
  exact ⟨hpress, hback .default, hsame rfl⟩

end PocketCalculator.Keypad
