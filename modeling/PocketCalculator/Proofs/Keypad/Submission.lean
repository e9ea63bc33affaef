import Mathlib.Algebra.Order.BigOperators.Group.List
import PocketCalculator.Proofs.Keypad.Tokens
import PocketCalculator.Proofs.Scanning.Parentheses

/-!
# Submitted texts

What is submitted of a typable text is typable, leaves no group open and ends a value. It
denotes a tree unless one of its operands cannot be read or a point directly follows a group.
-/
namespace PocketCalculator.Keypad

open Brackets

/-- A typable text that may be evaluated. -/
structure Complete (precision : Nat) (w : List Char) : Prop where
  typable : Typable precision w
  unclosed_eq : unclosed w = 0
  ends : ∃ d ∈ w.getLast?, endsExpression d = true

variable {precision : Nat} {w : List Char}

theorem Typable.append_closes (h : Typable precision w)
    (hends : ∃ d ∈ w.getLast?, endsExpression d = true) {n : Nat} (hn : n ≤ unclosed w) :
    Typable precision (w ++ List.replicate n ')') ∧
      unclosed (w ++ List.replicate n ')') + n = unclosed w ∧
      ∃ d ∈ (w ++ List.replicate n ')').getLast?, endsExpression d = true := by
  induction n with
  | zero => simpa using ⟨h, hends⟩
  | succ n ih =>
    obtain ⟨htypable, hunclosed, hlast⟩ := ih (by omega)
    have hopen : brackets.closes (w ++ List.replicate n ')') <
        brackets.opens (w ++ List.replicate n ')') := by
      rw [unclosed] at hunclosed
      omega
    have hclose := htypable.append (mayFollow_closeParen.mpr ⟨hopen, hlast⟩)
    have hstep := hclose.unclosed_append_close
    rw [List.replicate_succ', ← List.append_assoc]
    refine ⟨hclose, by omega, ')', by simp, rfl⟩

/-- What is submitted of a typable text is complete, if anything is submitted. -/
theorem Typable.submission (h : Typable precision w) (hne : submission w ≠ []) :
    Complete precision (Keypad.submission w) := by
  have hinitial : submittable w <+: w := List.rdropWhile_prefix _ w
  have hkept := h.initial hinitial
  have hnil : submittable w ≠ [] := by
    intro hnil
    apply hne
    rw [Keypad.submission, hnil]
    rfl
  have hends : ∃ d ∈ (submittable w).getLast?, endsExpression d = true := by
    have hlast := List.rdropWhile_last_not (fun c => !endsExpression c) w hnil
    rw [Bool.not_eq_true, Bool.not_eq_false'] at hlast
    exact ⟨_, List.getLast?_eq_some_getLast hnil, hlast⟩
  obtain ⟨htypable, hunclosed, hlast⟩ := hkept.append_closes hends (Nat.le_refl _)
  exact ⟨htypable, Nat.add_eq_right.mp hunclosed, hlast⟩

theorem Complete.endsValue (h : Complete precision w) : Keypad.endsValue w none = true := by
  obtain ⟨d, hlast, hd⟩ := h.ends
  have hlast : w.getLast? = some d := hlast
  simp only [endsExpression, Bool.or_eq_true, beq_iff_eq] at hd
  rw [endsValue_iff, ← any_isOperandChar_getLast?, hlast]
  rcases hd with hd | rfl
  · exact Or.inl (isOperandChar_of_isDigit hd)
  · exact Or.inr ⟨rfl, rfl⟩

theorem Complete.balanced (h : Complete precision w) :
    Token.brackets.Balanced (Token.scan w) := by
  have hclosed := h.typable.unclosed_add_closes
  rw [h.unclosed_eq] at hclosed
  have hbalanced : brackets.Balanced w :=
    ⟨fun p hp => (h.typable.closes_le p hp).trans (by omega), by omega⟩
  exact (balanced_scan_iff w).mpr hbalanced

/-! ## Operands that cannot be read -/

/-- An operand is a point alone. -/
def LonePoint (w : List Char) : Prop := ∃ before after, IsOperand w before ['.'] after

/-- An operand begins with a point directly after a closing parenthesis. -/
def PointOperandAfterClose (w : List Char) : Prop :=
  ∃ before operand after, IsOperand w before operand after ∧
    before.getLast? = some ')' ∧ operand.head? = some '.'

/-- The decimal value of an operand is so great that it rounds to no finite number. -/
def OutOfRange (w : List Char) : Prop :=
  ∃ before operand after, IsOperand w before operand after ∧
    Binary64.leastOverflow * 10 ^ (Decimal.ofDigits operand).places ≤
      (Decimal.ofDigits operand).coefficient

theorem pointOperandAfterClose_iff : PointOperandAfterClose w ↔ PointAfterClose w := by
  constructor
  · rintro ⟨before, operand, after, h, hbefore, hoperand⟩
    obtain ⟨u, rfl⟩ := List.getLast?_eq_some_iff.mp hbefore
    obtain ⟨v, rfl⟩ := List.head?_eq_some_iff.mp hoperand
    exact ⟨u, v ++ after, by simpa using h.split⟩
  · rintro ⟨u, v, rfl⟩
    refine ⟨u ++ [')'], '.' :: v.takeWhile isOperandChar, v.dropWhile isOperandChar,
      ⟨?_, by simp, ?_, ?_, ?_⟩, by simp, rfl⟩
    · simp [List.takeWhile_append_dropWhile]
    · intro c hc
      rcases List.mem_cons.mp hc with rfl | hc
      · rfl
      · exact List.mem_takeWhile_imp hc
    · simp
      decide
    · intro c hc
      have hdrop := List.head?_dropWhile_not isOperandChar v
      rw [hc] at hdrop
      simpa using hdrop

theorem any_isDigit_iff {operand : List Char} (hne : operand ≠ [])
    (hchars : ∀ c ∈ operand, isOperandChar c = true) (hpoints : operand.count '.' ≤ 1) :
    operand.any Char.isDigit = true ↔ operand ≠ ['.'] := by
  constructor
  · rintro h rfl
    cases h
  · intro hpoint
    by_contra hdigits
    have hall : ∀ c ∈ operand, c = '.' := by
      intro c hc
      have hnot : ¬c.isDigit = true := fun hd => hdigits (List.any_eq_true.mpr ⟨c, hc, hd⟩)
      have hoperand := hchars c hc
      simpa [isOperandChar, hnot] using hoperand
    have hreplicate := List.eq_replicate_of_mem hall
    rw [hreplicate, List.count_replicate_self] at hpoints
    have hpos := List.length_pos_iff.mpr hne
    have hone : operand.length = 1 := by omega
    rw [hone] at hreplicate
    exact hpoint hreplicate

/-- An operand of a typable text is read unless it is a point alone or out of range. -/
theorem exists_readOperand_iff {operand : List Char} (hne : operand ≠ [])
    (hchars : ∀ c ∈ operand, isOperandChar c = true) (hadmits : Admits precision operand) :
    (∃ value, readOperand operand = .ok value) ↔
      operand ≠ ['.'] ∧ (Decimal.ofDigits operand).coefficient <
        Binary64.leastOverflow * 10 ^ (Decimal.ofDigits operand).places := by
  have hdigits := any_isDigit_iff hne hchars hadmits.points
  rw [← hdigits, ← Decimal.isFinite_toBinary64_iff _ false,
    readOperand_of_operandChars hchars hadmits.points]
  cases operand.any Char.isDigit with
  | false => simp
  | true =>
    cases hfinite : ((Decimal.ofDigits operand).toBinary64 false).isFinite <;> simp

/-- The operands of a typable text are all read unless one is a point alone or out of range. -/
theorem exists_reads_iff (h : Typable precision w) :
    (∃ terminals, Reads (Token.scan w) terminals) ↔ ¬LonePoint w ∧ ¬OutOfRange w := by
  constructor
  · rintro ⟨terminals, hreads⟩
    have hread : ∀ before operand after, IsOperand w before operand after →
        operand ≠ ['.'] ∧ (Decimal.ofDigits operand).coefficient <
          Binary64.leastOverflow * 10 ^ (Decimal.ofDigits operand).places := by
      intro before operand after ho
      rw [← exists_readOperand_iff ho.ne_nil ho.chars (h.operands _ _ _ ho)]
      exact Reads.readOperand hreads ((literal_mem_scan h.typed operand).mpr ⟨_, _, ho⟩)
    refine ⟨?_, ?_⟩
    · rintro ⟨before, after, ho⟩
      exact (hread _ _ _ ho).1 rfl
    · rintro ⟨before, operand, after, ho, hrange⟩
      exact absurd (hread _ _ _ ho).2 (Nat.not_lt_of_le hrange)
  · rintro ⟨hlone, hrange⟩
    apply exists_reads
    intro literal hl
    obtain ⟨before, after, ho⟩ := (literal_mem_scan h.typed literal).mp hl
    rw [exists_readOperand_iff ho.ne_nil ho.chars (h.operands _ _ _ ho)]
    refine ⟨?_, ?_⟩
    · rintro rfl
      exact hlone ⟨before, after, ho⟩
    · by_contra hnot
      exact hrange ⟨before, literal, after, ho, Nat.le_of_not_lt hnot⟩

/-- What makes a submitted text no expression. -/
def Unreadable (w : List Char) : Prop := LonePoint w ∨ PointOperandAfterClose w ∨ OutOfRange w

/-- A complete text denotes a tree exactly when it is not unreadable. -/
theorem Complete.exists_denotes_iff (h : Complete precision w) :
    (∃ t, Denotes (Token.scan w) t) ↔ ¬Unreadable w := by
  have hleads := h.typable.leads none
  have hfrontier : ∀ terminals, Reads (Token.scan w) terminals →
      Frontier.start.run terminals = frontier w none := by
    intro terminals hreads
    rw [frontier, ← scan_eq_tokensOf h.typable.typed, Frontier.run_shape hreads]
  rw [Unreadable, not_or, not_or, pointOperandAfterClose_iff]
  constructor
  · rintro ⟨t, terminals, hreads, hd⟩
    obtain ⟨hlone, hrange⟩ := (exists_reads_iff h.typable).mp ⟨terminals, hreads⟩
    refine ⟨hlone, ?_, hrange⟩
    intro hpoint
    have hrun := Frontier.run_of_derives hd 0
    rw [← Frontier.start, hfrontier terminals hreads, hleads.none_of_point hpoint] at hrun
    cases hrun
  · rintro ⟨hlone, hpoint, hrange⟩
    obtain ⟨terminals, hreads⟩ := (exists_reads_iff h.typable).mpr ⟨hlone, hrange⟩
    have hrun := hfrontier terminals hreads
    rw [hleads.some_of_not hpoint, h.endsValue, h.unclosed_eq] at hrun
    obtain ⟨t, hd⟩ := (isExpression_iff_run terminals).mpr hrun
    exact ⟨t, terminals, hreads, hd⟩

end PocketCalculator.Keypad
