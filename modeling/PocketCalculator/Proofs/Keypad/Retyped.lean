import PocketCalculator.Proofs.Evaluation.FixedPoint
import PocketCalculator.Proofs.Keypad.Equals

/-!
# Going on from a shown value

A shown value can be typed, and typed it is shown again. So a key that is accepted after a
shown value does what it does after the value has been typed.
-/
namespace PocketCalculator.Keypad

variable {s : Settings} {k k' : Keypad}

/-! ## Shown values are results -/

/-- A value on the display is that of an expression. -/
def ShowsResult (s : Settings) (k : Keypad) : Prop :=
  ∀ text, k.output = .value text →
    ∃ expression shown, s.evaluate expression = .ok shown ∧ text = Decimal.trimFraction shown

theorem showsResult_of_nothing (h : k.output = .nothing) : k.ShowsResult s := by
  intro text htext
  rw [h] at htext
  cases htext

theorem output_of_typeKey {key : Key} (h : k.typeKey s key = .ok k') :
    k' = k ∨ k'.output = .nothing := by
  cases hkey : key.char? with
  | none =>
    rw [typeKey, hkey] at h
    cases h
    exact Or.inl rfl
  | some c =>
    rw [typeKey_of_char hkey] at h
    obtain ⟨accepted, -, h⟩ := Reader.bind_eq_ok h
    cases accepted with
    | true =>
      cases h
      exact Or.inr rfl
    | false =>
      cases h
      exact Or.inl rfl

theorem ShowsResult.submit (h : k.ShowsResult s) : (k.submit s).ShowsResult s := by
  by_cases hempty : submission k.input = []
  · rwa [Keypad.submit, if_pos (by simpa using hempty)]
  · rw [submit_of_ne_nil hempty]
    intro text htext
    dsimp only [outputOf] at htext
    split at htext
    · rename_i shown hshown
      cases htext
      exact ⟨_, shown, hshown, rfl⟩
    · cases htext

theorem ShowsResult.press (h : k.ShowsResult s) {key : Key} (hpress : k.press s key = .ok k') :
    k'.ShowsResult s := by
  have htyped : k.typeKey s key = .ok k' → k'.ShowsResult s := by
    intro htype
    rcases output_of_typeKey htype with rfl | hnothing
    · exact h
    · exact showsResult_of_nothing hnothing
  cases key with
  | clear =>
    cases hpress
    exact showsResult_of_nothing rfl
  | backspace =>
    cases hpress
    exact h
  | equals =>
    cases hpress
    exact h.submit
  | _ => exact htyped hpress

theorem ShowsResult.run (h : k.ShowsResult s) {keys : List Key}
    (hrun : k.pressAll s keys = .ok k') : k'.ShowsResult s := by
  induction keys generalizing k with
  | nil =>
    cases hrun
    exact h
  | cons key keys ih =>
    rw [pressAll, List.foldlM_cons] at hrun
    obtain ⟨next, hpress, hrun⟩ := Reader.bind_eq_ok hrun
    exact ih (h.press hpress) hrun

/-! ## Typing a shown value -/

theorem submission_eq_self {w : List Char} (hends : ∃ c ∈ w.getLast?, endsExpression c = true)
    (hclosed : brackets.opens w ≤ brackets.closes w) : submission w = w := by
  obtain ⟨c, hlast, hc⟩ := hends
  obtain ⟨before, rfl⟩ := List.getLast?_eq_some_iff.mp hlast
  have hkept : submittable (before ++ [c]) = before ++ [c] :=
    List.rdropWhile_concat_neg _ before c (by simp [hc])
  have hnone : (before ++ [c]).count '(' - (before ++ [c]).count ')' = 0 :=
    Nat.sub_eq_zero_of_le hclosed
  rw [submission, hkept, hnone, List.replicate_zero, List.append_nil]

theorem endsExpression_withSign (negative : Bool) (d : Decimal) :
    ∃ c ∈ (withSign negative d.text).getLast?, endsExpression c = true := by
  obtain ⟨c, hlast, hc⟩ := d.exists_getLast?_text
  have hends : endsExpression c = true := by simp [endsExpression, hc]
  refine ⟨c, ?_, hends⟩
  cases negative with
  | false => exact hlast
  | true =>
    rw [withSign, if_pos rfl, List.getLast?_cons, hlast]
    rfl

theorem submission_of_evaluate {expression shown : List Char}
    (h : s.evaluate expression = .ok shown) :
    submission (Decimal.trimFraction shown) = Decimal.trimFraction shown := by
  have hnone := (Brackets.opens_eq_zero (b := brackets) (ungrouped_of_evaluate h).no_group).le
  refine submission_eq_self ?_ (hnone.trans (Nat.zero_le _))
  obtain ⟨negative, rank, -, rfl⟩ := Settings.exists_fitsIn_of_evaluate h
  rw [Binary64.fixedText_finite, trimFraction_withSign, Decimal.trimFraction_text]
  exact endsExpression_withSign _ _

/-- A typed result is the result that is shown of it. -/
theorem submit_result (hs : s.precision ≤ Settings.maxPrecision) {expression shown : List Char}
    (h : s.evaluate expression = .ok shown) (groups : Nat) :
    (Keypad.mk (Decimal.trimFraction shown) .nothing groups).submit s =
      ⟨Decimal.trimFraction shown, .value (Decimal.trimFraction shown), groups⟩ := by
  have hsubmitted := submission_of_evaluate h
  have hne : Decimal.trimFraction shown ≠ [] := by
    intro hnil
    obtain ⟨negative, rank, -, rfl⟩ := Settings.exists_fitsIn_of_evaluate h
    rw [Binary64.fixedText_finite, trimFraction_withSign, Decimal.trimFraction_text] at hnil
    obtain ⟨c, hlast, -⟩ := endsExpression_withSign negative _
    rw [hnil] at hlast
    cases hlast
  rw [submit_of_ne_nil (by rwa [hsubmitted]), hsubmitted, outputOf,
    Settings.evaluate_trimFraction hs h]

/-! ## Going on -/

theorem pressAll_append {keys : List Key} (h : k.pressAll s keys = .ok k') (rest : List Key) :
    k.pressAll s (keys ++ rest) = k'.pressAll s rest := by
  rw [pressAll] at h ⊢
  rw [List.foldlM_append, h]
  rfl

theorem WellTyped.exists_pressAll {precision : Nat} (h : WellTyped precision k)
    (hs : s.precision ≤ precision) (keys : List Key) :
    ∃ k', k.pressAll s keys = .ok k' ∧ WellTyped precision k' := by
  have hrun : ∃ k', (keys.map fun key => (s, key)).foldlM (fun k p => k.press p.1 p.2) k = .ok k' ∧
      WellTyped precision k' := h.run (by simpa using fun _ _ => hs)
  rwa [List.foldlM_map] at hrun

/-- A key that is accepted depends only on what typing goes on from. -/
theorem press_of_continued_eq (h : k.continued = k'.continued) {key : Key}
    (hkey : key.char?.isSome = true) (haccepted : k.press s key ≠ .ok k) :
    k.press s key = k'.press s key := by
  obtain ⟨c, hc⟩ := Option.isSome_iff_exists.mp hkey
  rw [press_of_char hc, typeKey_of_char hc] at haccepted ⊢
  rw [press_of_char hc, typeKey_of_char hc, ← h]
  cases haccepts : accepts s.precision k.continued.1 k.continued.2 key with
  | error inside => rfl
  | ok accepted =>
    cases accepted with
    | true => rfl
    | false =>
      rw [haccepts] at haccepted
      exact absurd rfl haccepted

/-- A shown value is accepted when it is typed, is shown again, and goes on as the typed text
does. -/
theorem shown_values_are_typed_texts (hs : s.precision ≤ Settings.maxPrecision)
    (keys : List Key) :
    ∃ k, empty.pressAll s keys = .ok k ∧ ∀ text, k.output = .value text →
      (∀ u, u <+: text → ∃ typed, u.mapM Key.ofChar? = some typed ∧
        empty.pressAll s typed = .ok ⟨u, .nothing, 0⟩) ∧
      ∃ typed, text.mapM Key.ofChar? = some typed ∧
        empty.pressAll s (typed ++ [.equals]) = .ok ⟨text, .value text, 0⟩ ∧
        ∀ key rest, key.char?.isSome = true → k.press s key ≠ .ok k →
          ∃ k', k.pressAll s (key :: rest) = .ok k' ∧
            empty.pressAll s (typed ++ key :: rest) = .ok k' := by
  obtain ⟨k, hrun, hk⟩ := WellTyped.empty.exists_pressAll (Nat.le_refl s.precision) keys
  refine ⟨k, hrun, fun text htext => ?_⟩
  obtain ⟨expression, shown, hshown, rfl⟩ :=
    (showsResult_of_nothing rfl).run hrun text htext
  have hungrouped := ungrouped_of_evaluate hshown
  have htype : ∀ u, u <+: Decimal.trimFraction shown → ∃ typed,
      u.mapM Key.ofChar? = some typed ∧ empty.pressAll s typed = .ok ⟨u, .nothing, 0⟩ := by
    intro u hu
    have hinitial := hungrouped.initial hu
    obtain ⟨typed, htyped, hpress⟩ := hinitial.typable.exists_keys rfl
    rw [hinitial.unclosed_eq_zero] at hpress
    exact ⟨typed, htyped, hpress⟩
  obtain ⟨typed, htyped, hpress⟩ := htype _ (List.prefix_refl _)
  refine ⟨htype, typed, htyped, ?_, ?_⟩
  · rw [pressAll_append hpress, pressAll, List.foldlM_cons, press, submit_result hs hshown]
    rfl
  · intro key rest hkey haccepted
    obtain ⟨k', hgoes, -⟩ := hk.exists_pressAll (Nat.le_refl _) (key :: rest)
    refine ⟨k', hgoes, ?_⟩
    have hcontinued : k.continued =
        (Keypad.mk (Decimal.trimFraction shown) .nothing 0).continued := by
      rw [continued, htext]
      rfl
    rw [pressAll_append hpress, ← hgoes, pressAll, pressAll, List.foldlM_cons, List.foldlM_cons,
      press_of_continued_eq hcontinued hkey haccepted]

/-- A negative result is typed with its sign, and a fraction can be added to it. -/
theorem shown_values_are_typed_texts_negative :
    ∃ k, empty.pressAll Settings.default [.digit 2, .operator .subtract, .digit 9, .equals] =
        .ok k ∧
      k.output = .value ['-', '7'] ∧
      empty.pressAll Settings.default [.operator .subtract, .digit 7, .equals] =
        .ok ⟨['-', '7'], .value ['-', '7'], 0⟩ ∧
      ∃ k', k.pressAll Settings.default [.point, .digit 5] = .ok k' ∧
        empty.pressAll Settings.default [.operator .subtract, .digit 7, .point, .digit 5] =
          .ok k' := by
  have hresult : empty.pressAll Settings.default
      [.digit 2, .operator .subtract, .digit 9, .equals] =
        .ok ⟨['2', '-', '9'], .value ['-', '7'], 0⟩ := by decide +kernel
  obtain ⟨k, hrun, hshown⟩ := shown_values_are_typed_texts (s := Settings.default) (by decide)
    [.digit 2, .operator .subtract, .digit 9, .equals]
  rw [hresult] at hrun
  cases hrun
  obtain ⟨-, typed, htyped, hagain, hgoes⟩ := hshown ['-', '7'] rfl
  have hkeys : typed = [.operator .subtract, .digit 7] := Option.some.inj htyped.symm
  rw [hkeys] at hagain hgoes
  exact ⟨_, hresult, rfl, hagain, hgoes .point [.digit 5] rfl (by decide +kernel)⟩

end PocketCalculator.Keypad
