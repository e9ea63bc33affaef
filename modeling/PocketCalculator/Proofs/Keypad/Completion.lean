import PocketCalculator.Proofs.Keypad.Retyped

/-!
# Submission as the least completion

Submission drops the end of a text only as far as it must to end an expression, and closes no more
groups than are open in what it keeps.
-/
namespace PocketCalculator.Keypad

open Brackets

variable {w : List Char}

/-- The text is empty or ends as an expression may. -/
def MayEnd (w : List Char) : Prop := ∀ c ∈ w.getLast?, c.isDigit = true ∨ c = ')'

/-- The longest part of a text from its beginning that may end an expression. -/
structure IsLongestEnding (kept w : List Char) : Prop where
  initial : kept <+: w
  mayEnd : MayEnd kept
  longest : ∀ p, p <+: w → MayEnd p → p <+: kept

theorem mayEnd_concat_iff {c : Char} : MayEnd (w ++ [c]) ↔ endsExpression c = true := by
  simp [MayEnd, endsExpression]

theorem MayEnd.append_closing (h : MayEnd w) (n : ℕ) : MayEnd (w ++ List.replicate n ')') := by
  cases n with
  | zero => simpa using h
  | succ n =>
    rw [List.replicate_succ', ← List.append_assoc]
    exact mayEnd_concat_iff.mpr rfl

theorem submittable_concat (w : List Char) (c : Char) :
    submittable (w ++ [c]) = if endsExpression c then w ++ [c] else submittable w := by
  cases h : endsExpression c
  · exact List.rdropWhile_concat_pos _ w c (by simp [h])
  · exact List.rdropWhile_concat_neg _ w c (by simp [h])

theorem isLongestEnding_submittable (w : List Char) : IsLongestEnding (submittable w) w := by
  induction w using List.reverseRecOn with
  | nil => exact ⟨List.prefix_rfl, by simp [MayEnd, submittable], fun p hp _ => hp⟩
  | append_singleton w c ih =>
    rw [submittable_concat]
    cases hc : endsExpression c with
    | true => exact ⟨List.prefix_rfl, mayEnd_concat_iff.mpr hc, fun p hp _ => hp⟩
    | false =>
      refine ⟨ih.initial.trans (List.prefix_append w [c]), ih.mayEnd, fun p hp hends => ?_⟩
      rcases List.prefix_concat_iff.mp hp with rfl | hp
      · have hlast := mayEnd_concat_iff.mp hends
        rw [hc] at hlast
        cases hlast
      · exact ih.longest p hp hends

theorem submission_eq (w : List Char) :
    submission w = submittable w ++ List.replicate (unclosed (submittable w)) ')' := rfl

theorem mayEnd_submission (w : List Char) : MayEnd (submission w) :=
  (isLongestEnding_submittable w).mayEnd.append_closing _

theorem opens_submission_le (w : List Char) :
    brackets.opens (submission w) ≤ brackets.closes (submission w) := by
  have hopens : ∀ n, brackets.opens (List.replicate n ')') = 0 := fun n =>
    opens_replicate_closing (b := brackets)
  have hcloses : ∀ n, brackets.closes (List.replicate n ')') = n := fun n =>
    closes_replicate_closing (b := brackets)
  rw [submission_eq, opens_append, closes_append, hopens, hcloses, unclosed]
  omega

theorem submission_submission (w : List Char) : submission (submission w) = submission w := by
  have hends := mayEnd_submission w
  have hclosed := opens_submission_le w
  rcases List.eq_nil_or_concat (submission w) with h | ⟨u, c, h⟩
  · rw [h]
    rfl
  · rw [List.concat_eq_append] at h
    rw [h] at hends hclosed ⊢
    exact submission_eq_self ⟨c, by simp, mayEnd_concat_iff.mp hends⟩ hclosed

/-- What is submitted is the longest part of the text that may end an expression, and after it as
many closing parentheses as it has more opening than closing ones; submitting that again changes
nothing. If no parenthesis of the text closes a group that is not open, what is submitted is
balanced, and fewer closing parentheses would not do. -/
theorem submission_is_least_completion (w : List Char) :
    IsLongestEnding (submittable w) w ∧
      submission w = submittable w ++ List.replicate
        (brackets.opens (submittable w) - brackets.closes (submittable w)) ')' ∧
      submission (submission w) = submission w ∧
      (brackets.NoneUnmatched w → brackets.Balanced (submission w) ∧
        ∀ n < brackets.opens (submittable w) - brackets.closes (submittable w),
          ¬brackets.Balanced (submittable w ++ List.replicate n ')')) := by
  have hkept : IsLongestEnding (submittable w) w := isLongestEnding_submittable w
  refine ⟨hkept, submission_eq w, submission_submission w, fun hnone => ?_⟩
  have hinitial : brackets.NoneUnmatched (submittable w) :=
    fun p hp => hnone p (hp.trans hkept.initial)
  have hle : brackets.closes (submittable w) ≤ brackets.opens (submittable w) :=
    hinitial _ List.prefix_rfl
  constructor
  · exact balanced_append_closing_iff.mpr ⟨hinitial, Nat.add_sub_of_le hle⟩
  · intro n hn hbalanced
    have hcount : brackets.closes (submittable w) + n = brackets.opens (submittable w) :=
      (balanced_append_closing_iff.mp hbalanced).2
    omega

/-- Two groups are open where the text is cut off; a third one is opened only after that. -/
theorem submission_is_least_completion_open_groups :
    let typed := "(2X((3+1)-(".toList
    brackets.NoneUnmatched typed ∧ submission typed = "(2X((3+1)))".toList ∧
      brackets.Balanced (submission typed) ∧
      ∀ n < 2, ¬brackets.Balanced ("(2X((3+1)".toList ++ List.replicate n ')') := by
  intro typed
  have hnone : brackets.NoneUnmatched typed := fun p hp =>
    (by decide : ∀ p ∈ typed.inits, brackets.closes p ≤ brackets.opens p) p
      ((List.mem_inits p typed).mpr hp)
  obtain ⟨-, -, -, hbalanced⟩ := submission_is_least_completion typed
  exact ⟨hnone, by decide, hbalanced hnone⟩

end PocketCalculator.Keypad
