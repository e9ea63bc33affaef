import PocketCalculator.Proofs.Evaluation.Outcomes
import PocketCalculator.Proofs.Keypad.Submission

/-!
# What the equals key shows

A text that was typed is never refused because of its parentheses. It is refused as unreadable
only if it is, and every readable one has a value unless an operation or a limit forbids it.
-/
namespace PocketCalculator

namespace Keypad

open Brackets

variable {precision : Nat} {text : List Char} {s : Settings}

/-! ## The output -/

/-- The output of a submitted text. -/
def outputOf (s : Settings) (text : List Char) : Output :=
  match s.evaluate text with
  | .ok shown => .value (Decimal.trimFraction shown)
  | .error fault => .fault fault.kind

theorem submit_of_ne_nil {k : Keypad} (h : submission k.input ≠ []) (s : Settings) :
    k.submit s = { k with output := outputOf s (submission k.input) } := by
  have hempty : (submission k.input).isEmpty = false := by simpa using h
  unfold Keypad.submit
  dsimp only
  rw [if_neg (by simp [hempty])]
  rfl

theorem outputOf_of_error {fault : Fault} (h : Expression.parse text = .error fault)
    (s : Settings) : outputOf s text = .fault fault.kind := by
  rw [outputOf, Settings.evaluate_of_parse_error h]

theorem outputOf_of_ok {t : Expression} (h : Expression.parse text = .ok t) (s : Settings) :
    (∃ shown, outputOf s text = .value shown) ∨
      outputOf s text = .fault .divisionByZero ∨ outputOf s text = .fault .overflow := by
  cases hreduce : s.reduce t with
  | ok x =>
    rw [outputOf, Settings.evaluate_of_reduce h hreduce]
    exact Or.inl ⟨_, rfl⟩
  | error fault =>
    rw [outputOf, Settings.evaluate_of_reduce_error h hreduce]
    rcases Settings.fault_of_reduce hreduce with rfl | rfl
    · exact Or.inr (Or.inl rfl)
    · exact Or.inr (Or.inr rfl)

/-- What cannot be read is refused as such, unless a limit is met before. -/
theorem Complete.output_of_unreadable (h : Complete precision text) (hn : Unreadable text)
    (s : Settings) :
    outputOf s text = .fault .numberFormat ∨ outputOf s text = .fault .tooDeep := by
  cases hparse : Expression.parse text with
  | ok t =>
    obtain ⟨hdenotes, -⟩ := Expression.denotes_of_ofTokens hparse
    exact absurd hn (h.exists_denotes_iff.mp ⟨t, hdenotes⟩)
  | error fault =>
    rw [outputOf_of_error hparse]
    rcases Expression.inReading_of_balanced h.balanced hparse with hkind | hkind
    · exact Or.inl (by rw [hkind])
    · exact Or.inr (by rw [hkind])

/-- The text has more groups open at once than are allowed, or denotes a tree that is higher
than is allowed. -/
def ExceedsLimit (text : List Char) : Prop :=
  ¬brackets.NestsWithin maxGroups text ∨
    ∃ t, Denotes (Token.scan text) t ∧ Expression.maxHeight < t.height

/-- What can be read has a value unless an operation or a limit forbids it. -/
theorem Complete.output_of_readable (h : Complete precision text) (hn : ¬Unreadable text)
    (s : Settings) :
    ((∃ shown, outputOf s text = .value shown) ∨
      outputOf s text = .fault .divisionByZero ∨ outputOf s text = .fault .overflow) ∨
      outputOf s text = .fault .tooDeep ∧ ExceedsLimit text := by
  obtain ⟨t, ht⟩ := h.exists_denotes_iff.mpr hn
  rcases Expression.ofTokens_of_denotes ht with hok | ⟨limit, herror, hlimit⟩
  · exact Or.inl (outputOf_of_ok hok s)
  · refine Or.inr ⟨outputOf_of_error herror s, ?_⟩
    rcases hlimit with ⟨-, hnests⟩ | ⟨-, hheight⟩
    · rw [nestsWithin_iff_of_marks (marks_scan text)] at hnests
      exact Or.inl hnests
    · exact Or.inr ⟨t, ht, hheight⟩

theorem exists_precision_bound (presses : List (Settings × Key)) :
    ∃ precision, ∀ p ∈ presses, p.1.precision ≤ precision :=
  ⟨(presses.map fun p => p.1.precision).sum, fun _ hp =>
    List.single_le_sum (by simp) _ (List.mem_map_of_mem hp)⟩

/-- What the equals key can show after any keys, with what it takes for the submitted text to
be unreadable or beyond a limit. -/
theorem equals_outputs (presses : List (Settings × Key)) (k : Keypad)
    (hrun : pressEach presses = .ok k) (hne : submission k.input ≠ []) (s : Settings) :
    ∃ output, k.press s .equals = .ok { k with output := output } ∧
      output ≠ .fault .malformedParentheses ∧
      (output = .fault .numberFormat → Unreadable (submission k.input)) ∧
      (Unreadable (submission k.input) →
        output = .fault .numberFormat ∨ output = .fault .tooDeep) ∧
      (¬Unreadable (submission k.input) →
        ((∃ shown, output = .value shown) ∨ output = .fault .divisionByZero ∨
          output = .fault .overflow) ∨
        output = .fault .tooDeep ∧ ExceedsLimit (submission k.input)) := by
  obtain ⟨precision, hbound⟩ := exists_precision_bound presses
  obtain ⟨k', hrun', hk⟩ := exists_pressEach hbound
  rw [hrun] at hrun'
  cases hrun'
  have hcomplete := hk.typable.submission hne
  have hunreadable := fun hn => hcomplete.output_of_unreadable hn s
  have hreadable := fun hn => hcomplete.output_of_readable hn s
  refine ⟨outputOf s (submission k.input), ?_, ?_, ?_, hunreadable, hreadable⟩
  · rw [press, submit_of_ne_nil hne]
  · intro hmalformed
    rw [hmalformed] at hunreadable hreadable
    by_cases hn : Unreadable (submission k.input)
    · rcases hunreadable hn with h | h <;> cases h
    · rcases hreadable hn with (⟨shown, h⟩ | h | h) | ⟨h, _⟩ <;> cases h
  · intro hformat
    by_contra hn
    rcases hreadable hn with (⟨shown, h⟩ | h | h) | ⟨h, _⟩ <;> rw [hformat] at h <;> cases h

/-- A point typed directly after a group makes the text unreadable. -/
theorem equals_outputs_after_group_and_point :
    ∃ k output, pressEach
        ([.openParen, .digit 1, .closeParen, .point, .digit 5, .operator .add].map
          fun key => (Settings.default, key)) = .ok k ∧
      submission k.input = ['(', '1', ')', '.', '5'] ∧
      k.press Settings.default .equals = .ok { k with output := output } ∧
      (output = .fault .numberFormat ∨ output = .fault .tooDeep) := by
  let k : Keypad := ⟨['(', '1', ')', '.', '5', '+'], .nothing, 0⟩
  have hsubmitted : submission k.input = ['(', '1', ')', '.', '5'] := by decide
  have hrun : pressEach ([.openParen, .digit 1, .closeParen, .point, .digit 5,
      .operator .add].map fun key => (Settings.default, key)) = .ok k := by rfl
  obtain ⟨output, hpress, -, -, hunreadable, -⟩ :=
    equals_outputs _ k hrun (by rw [hsubmitted]; simp) Settings.default
  refine ⟨k, output, hrun, hsubmitted, hpress, hunreadable (Or.inr (Or.inl ?_))⟩
  rw [hsubmitted, pointOperandAfterClose_iff]
  exact ⟨['(', '1'], ['5'], rfl⟩

end Keypad

end PocketCalculator
