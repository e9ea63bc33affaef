import PocketCalculator.Proofs.Keypad.Shown

/-!
# The texts that keys lead to

Every key keeps the input typable and the count of open groups right, also when it is
pressed under settings of its own, and typing goes on from a shown value. Conversely the
characters of a typable text are all accepted one after the other.
-/
namespace PocketCalculator.Keypad

open Brackets

/-- The keypad after keys pressed on an empty one, each under settings of its own. -/
def pressEach (presses : List (Settings × Key)) : Except InsideCharacter Keypad :=
  presses.foldlM (fun k p => k.press p.1 p.2) empty

/-- What every key preserves. -/
structure WellTyped (precision : Nat) (k : Keypad) : Prop where
  typable : Typable precision k.input
  openGroups_eq : k.openGroups = unclosed k.input
  shown : ∀ text, k.output = .value text → Ungrouped precision text

variable {precision : Nat} {w : List Char} {k k' : Keypad} {s : Settings}

/-! ## Open groups -/

theorem Typable.closes_le_opens (h : Typable precision w) :
    brackets.closes w ≤ brackets.opens w := h.closes_le w (List.prefix_refl w)

theorem Typable.unclosed_add_closes (h : Typable precision w) :
    unclosed w + brackets.closes w = brackets.opens w :=
  Nat.sub_add_cancel h.closes_le_opens

theorem Typable.unclosed_append_open (h : Typable precision (w ++ ['('])) :
    unclosed (w ++ ['(']) = unclosed w + 1 := by
  have hle := h.of_append.closes_le_opens
  have hopens : brackets.opens ['('] = 1 := rfl
  have hcloses : brackets.closes ['('] = 0 := rfl
  rw [unclosed, unclosed, opens_append, closes_append, hopens, hcloses]
  omega

theorem Typable.unclosed_append_close (h : Typable precision (w ++ [')'])) :
    unclosed (w ++ [')']) + 1 = unclosed w := by
  have hlt := h.mayFollow.open_group rfl
  have hopens : brackets.opens [')'] = 0 := rfl
  have hcloses : brackets.closes [')'] = 1 := rfl
  rw [unclosed, unclosed, opens_append, closes_append, hopens, hcloses]
  omega

theorem unclosed_append_other {c : Char} (hopen : c ≠ '(') (hclose : c ≠ ')') :
    unclosed (w ++ [c]) = unclosed w := by
  have hopens : brackets.opens [c] = 0 := opens_cons_other hopen
  have hcloses : brackets.closes [c] = 0 := closes_cons_other hclose
  rw [unclosed, unclosed, opens_append, closes_append, hopens, hcloses, Nat.add_zero,
    Nat.add_zero]

/-! ## Typing -/

/-- The text and the open groups that typing goes on from. -/
def continued (k : Keypad) : List Char × Nat :=
  match k.output with
  | .value text => (text, 0)
  | _ => (k.input, k.openGroups)

theorem continued_groups_le (k : Keypad) : k.continued.2 ≤ k.openGroups := by
  unfold continued
  split
  · exact Nat.zero_le _
  · exact Nat.le_refl _

theorem WellTyped.continued (h : WellTyped precision k) :
    Typable precision k.continued.1 ∧ k.continued.2 = unclosed k.continued.1 := by
  unfold Keypad.continued
  split
  · rename_i text houtput
    have hshown := h.shown text houtput
    exact ⟨hshown.typable, hshown.unclosed_eq_zero.symm⟩
  · exact ⟨h.typable, h.openGroups_eq⟩

theorem exists_accepts {operand : List Char} (hw : currentOperand w = .ok operand)
    (precision groups : Nat) (key : Key) :
    ∃ accepted, accepts precision w groups key = .ok accepted := by
  cases key with
  | digit d =>
    rw [accepts, hw]
    exact ⟨_, rfl⟩
  | point =>
    rw [accepts, hw]
    split <;> exact ⟨_, rfl⟩
  | _ => exact ⟨_, rfl⟩

/-- The groups left open after an accepted key. -/
def groupsAfter (groups : Nat) : Key → Nat
  | .openParen => groups + 1
  | .closeParen => groups - 1
  | _ => groups

theorem groupsAfter_le (groups : Nat) (key : Key) : groupsAfter groups key ≤ groups + 1 := by
  cases key <;> simp only [groupsAfter] <;> omega

theorem Typable.groupsAfter {key : Key} {c : Char} (hkey : key.char? = some c)
    (h : Typable precision (w ++ [c])) :
    Keypad.groupsAfter (unclosed w) key = unclosed (w ++ [c]) := by
  cases key with
  | openParen =>
    cases hkey
    exact h.unclosed_append_open.symm
  | closeParen =>
    cases hkey
    have hstep := h.unclosed_append_close
    simp only [Keypad.groupsAfter]
    omega
  | digit d =>
    have hc := Key.isDigit_char hkey
    refine (unclosed_append_other ?_ ?_).symm <;> rintro rfl <;> cases hc
  | point =>
    cases hkey
    exact (unclosed_append_other (by decide) (by decide)).symm
  | operator op =>
    cases hkey
    cases op <;> exact (unclosed_append_other (by decide) (by decide)).symm
  | clear => cases hkey
  | backspace => cases hkey
  | equals => cases hkey

theorem typeKey_of_char {key : Key} {c : Char} (hkey : key.char? = some c) (k : Keypad)
    (s : Settings) :
    k.typeKey s key =
      (accepts s.precision k.continued.1 k.continued.2 key).bind fun accepted =>
        if accepted then .ok ⟨k.continued.1 ++ [c], .nothing, groupsAfter k.continued.2 key⟩
        else .ok k := by
  rw [typeKey, hkey, Keypad.continued]
  cases k.output <;> cases key <;> rfl

theorem typeKey_cases (h : Typable precision k.continued.1) (s : Settings) (key : Key) :
    k.typeKey s key = .ok k ∨
      ∃ c, key.char? = some c ∧
        accepts s.precision k.continued.1 k.continued.2 key = .ok true ∧
        k.typeKey s key =
          .ok ⟨k.continued.1 ++ [c], .nothing, groupsAfter k.continued.2 key⟩ := by
  cases hkey : key.char? with
  | none =>
    left
    rw [typeKey, hkey]
  | some c =>
    obtain ⟨accepted, haccepts⟩ :=
      exists_accepts (currentOperand_of_typed h.typed) s.precision k.continued.2 key
    have htype := typeKey_of_char hkey k s
    rw [haccepts] at htype
    cases accepted with
    | true => exact Or.inr ⟨c, rfl, haccepts, htype⟩
    | false => exact Or.inl htype

/-- An accepted key keeps the text typable, also under a lower precision. -/
theorem WellTyped.append (h : WellTyped precision k) (hs : s.precision ≤ precision) {key : Key}
    {c : Char} (hkey : key.char? = some c)
    (haccepts : accepts s.precision k.continued.1 k.continued.2 key = .ok true) :
    Typable precision (k.continued.1 ++ [c]) := by
  obtain ⟨htypable, hgroups⟩ := h.continued
  rw [hgroups] at haccepts
  exact htypable.append ((accepts_iff_mayFollow htypable hkey).mp (accepts_mono hs haccepts))

theorem WellTyped.typeKey (h : WellTyped precision k) (hs : s.precision ≤ precision)
    (key : Key) : ∃ k', k.typeKey s key = .ok k' ∧ WellTyped precision k' := by
  rcases typeKey_cases h.continued.1 s key with hsame | ⟨c, hkey, haccepts, htype⟩
  · exact ⟨k, hsame, h⟩
  · have htypable := h.append hs hkey haccepts
    refine ⟨_, htype, htypable, ?_, by simp⟩
    dsimp only
    rw [h.continued.2]
    exact htypable.groupsAfter hkey

/-! ## The other keys -/

theorem WellTyped.empty : WellTyped precision Keypad.empty :=
  ⟨Typable.nil precision, rfl, by simp [Keypad.empty]⟩

theorem WellTyped.erase (h : WellTyped precision k) : WellTyped precision k.erase := by
  have hinitial := List.dropLast_prefix k.input
  refine ⟨h.typable.initial hinitial, ?_, h.shown⟩
  obtain ⟨hinput, hgroups⟩ := And.intro h.typable h.openGroups_eq
  unfold Keypad.erase
  dsimp only
  rcases List.eq_nil_or_concat k.input with hnil | ⟨w, c, hw⟩
  · rw [hnil] at hgroups ⊢
    exact hgroups
  · rw [List.concat_eq_append] at hw
    rw [hw] at hinput hgroups ⊢
    rw [List.dropLast_concat, List.getLast?_concat]
    split
    · rename_i hlast
      cases hlast
      have hstep := hinput.unclosed_append_open
      omega
    · rename_i hlast
      cases hlast
      have hstep := hinput.unclosed_append_close
      omega
    · rename_i hopen hclose
      rw [hgroups]
      exact unclosed_append_other (by simpa using hopen) (by simpa using hclose)

theorem Typable.mono {precision' : Nat} (h : Typable precision w)
    (hle : precision ≤ precision') : Typable precision' w :=
  { h with operands := fun _ _ _ ho => (h.operands _ _ _ ho).mono hle }

theorem WellTyped.submit (h : WellTyped precision k) (hs : s.precision ≤ precision) :
    WellTyped precision (k.submit s) := by
  unfold Keypad.submit
  dsimp only
  split
  · exact h
  · refine ⟨h.typable, h.openGroups_eq, ?_⟩
    intro text htext
    dsimp only at htext
    split at htext
    · rename_i shown hshown
      cases htext
      have hungrouped := ungrouped_of_evaluate hshown
      exact ⟨hungrouped.typable.mono hs, hungrouped.no_group⟩
    · cases htext

theorem WellTyped.press (h : WellTyped precision k) (hs : s.precision ≤ precision) (key : Key) :
    ∃ k', k.press s key = .ok k' ∧ WellTyped precision k' := by
  cases key with
  | clear => exact ⟨_, rfl, WellTyped.empty⟩
  | backspace => exact ⟨_, rfl, h.erase⟩
  | equals => exact ⟨_, rfl, h.submit hs⟩
  | digit d => exact h.typeKey hs (.digit d)
  | point => exact h.typeKey hs .point
  | operator op => exact h.typeKey hs (.operator op)
  | openParen => exact h.typeKey hs .openParen
  | closeParen => exact h.typeKey hs .closeParen

theorem WellTyped.run (h : WellTyped precision k) {presses : List (Settings × Key)}
    (hs : ∀ p ∈ presses, p.1.precision ≤ precision) :
    ∃ k', presses.foldlM (fun k p => k.press p.1 p.2) k = .ok k' ∧ WellTyped precision k' := by
  induction presses generalizing k with
  | nil => exact ⟨k, rfl, h⟩
  | cons p presses ih =>
    obtain ⟨next, hpress, hnext⟩ := h.press (hs p (by simp)) p.2
    obtain ⟨k', hrun, hk'⟩ := ih hnext fun q hq => hs q (by simp [hq])
    refine ⟨k', ?_, hk'⟩
    rw [List.foldlM_cons, hpress]
    exact hrun

theorem exists_pressEach {presses : List (Settings × Key)}
    (hs : ∀ p ∈ presses, p.1.precision ≤ precision) :
    ∃ k, pressEach presses = .ok k ∧ WellTyped precision k := WellTyped.empty.run hs

/-! ## Typing a typable text -/

theorem Key.exists_digit {c : Char} (h : c.isDigit = true) :
    ∃ d, (Key.digit d).char? = some c := by
  rw [Char.isDigit_iff_toNat] at h
  have hlow : 48 ≤ c.toNat := h.1
  have hhigh : c.toNat ≤ 57 := h.2
  obtain ⟨d, hd⟩ := Nat.exists_eq_add_of_le hlow
  have hlt : d < 10 := by omega
  refine ⟨d, ?_⟩
  rw [← Char.ofNat_toNat c, hd]
  clear hd
  revert d
  decide

theorem exists_key_of_isTyped {c : Char} (h : IsTyped c) :
    ∃ key : Key, Key.ofChar? c = some key ∧ key.char? = some c := by
  rcases h with h | ⟨op, rfl⟩ | rfl | rfl
  · simp only [isOperandChar, Bool.or_eq_true, beq_iff_eq] at h
    rcases h with h | rfl
    · obtain ⟨d, hchar⟩ := Key.exists_digit h
      exact ⟨.digit d, Key.ofChar?_of_char? hchar, hchar⟩
    · exact ⟨.point, rfl, rfl⟩
  · exact ⟨.operator op, Key.ofChar?_of_char? rfl, rfl⟩
  · exact ⟨.openParen, rfl, rfl⟩
  · exact ⟨.closeParen, rfl, rfl⟩

theorem press_of_char {key : Key} {c : Char} (hkey : key.char? = some c) (s : Settings)
    (k : Keypad) : k.press s key = k.typeKey s key := by
  cases key with
  | clear => cases hkey
  | backspace => cases hkey
  | equals => cases hkey
  | _ => rfl

theorem Typable.exists_keys (h : Typable precision w) (hs : s.precision = precision) :
    ∃ keys, w.mapM Key.ofChar? = some keys ∧
      Keypad.empty.pressAll s keys = .ok ⟨w, .nothing, unclosed w⟩ := by
  induction w using List.reverseRecOn with
  | nil => exact ⟨[], rfl, rfl⟩
  | append_singleton w c ih =>
    obtain ⟨keys, hkeys, hpress⟩ := ih h.of_append
    obtain ⟨key, hof, hkey⟩ := exists_key_of_isTyped h.mayFollow.typed
    refine ⟨keys ++ [key], by simp [List.mapM_append, hkeys, hof], ?_⟩
    have haccepts := (accepts_iff_mayFollow h.of_append hkey).mpr h.mayFollow
    have htype := typeKey_of_char hkey ⟨w, .nothing, unclosed w⟩ s
    rw [Keypad.continued] at htype
    dsimp only at htype
    rw [hs, haccepts] at htype
    rw [pressAll] at hpress ⊢
    rw [List.foldlM_append, hpress]
    simp only [bind, Except.bind, List.foldlM_cons, List.foldlM_nil]
    rw [press_of_char hkey, htype]
    simp only [Except.bind, if_true, h.groupsAfter hkey]
    rfl

/-! ## The language of the keypad -/

/-- A count of open groups is taken down only where a group is open. -/
theorem WellTyped.erase_open (h : WellTyped precision k) (hlast : k.input.getLast? = some '(') :
    k.erase.openGroups + 1 = k.openGroups := by
  obtain ⟨w, hw⟩ := List.getLast?_eq_some_iff.mp hlast
  have hinput := h.typable
  rw [hw] at hinput
  rw [h.erase.openGroups_eq, h.openGroups_eq, Keypad.erase, hw, List.dropLast_concat]
  exact hinput.unclosed_append_open.symm

theorem WellTyped.close (h : WellTyped precision k) (hs : s.precision ≤ precision)
    (hpress : k.press s .closeParen = .ok k') :
    k' = k ∨ k'.input = k.continued.1 ++ [')'] ∧ k'.openGroups + 1 = k.continued.2 := by
  have hkey : Key.closeParen.char? = some ')' := rfl
  rw [press_of_char hkey] at hpress
  rcases typeKey_cases h.continued.1 s .closeParen with hsame | ⟨c, hc, haccepts, htype⟩
  · rw [hsame] at hpress
    exact Or.inl (Except.ok.inj hpress).symm
  · cases hc
    rw [htype] at hpress
    cases hpress
    have htypable := h.append hs hkey haccepts
    refine Or.inr ⟨rfl, ?_⟩
    dsimp only
    rw [h.continued.2, htypable.groupsAfter hkey]
    exact htypable.unclosed_append_close

/-- Keys lead to typable texts only, with the open groups counted right, and the keys of a
typable text lead to that text. -/
theorem reachable_inputs_are_typable_texts (precision : Nat) :
    (∀ presses : List (Settings × Key), (∀ p ∈ presses, p.1.precision ≤ precision) →
      ∃ k, pressEach presses = .ok k ∧
        Typable precision k.input ∧
        k.openGroups + brackets.closes k.input = brackets.opens k.input ∧
        (k.input.getLast? = some '(' → k.erase.openGroups + 1 = k.openGroups) ∧
        ∀ s k', s.precision ≤ precision → k.press s .closeParen = .ok k' →
          k' = k ∨ k'.input = k.continued.1 ++ [')'] ∧ k'.openGroups + 1 = k.continued.2) ∧
    ∀ (s : Settings) (w : List Char), s.precision = precision → Typable precision w →
      ∀ u, u <+: w → ∃ keys, u.mapM Key.ofChar? = some keys ∧
        empty.pressAll s keys = .ok ⟨u, .nothing, brackets.opens u - brackets.closes u⟩ := by
  refine ⟨fun presses hs => ?_, fun s w hs hw u hu => (hw.initial hu).exists_keys hs⟩
  obtain ⟨k, hrun, hk⟩ := exists_pressEach hs
  refine ⟨k, hrun, hk.typable, ?_, hk.erase_open, fun s k' hs hpress => hk.close hs hpress⟩
  rw [hk.openGroups_eq]
  exact hk.typable.unclosed_add_closes

end PocketCalculator.Keypad
