import PocketCalculator.Proofs.Frontier
import PocketCalculator.Proofs.Keypad.Reachable
import PocketCalculator.Proofs.Keypad.Scanning

/-!
# The tokens of a typed text

Two things about the tokens follow from the text: the literals are its operands, and the
tokens may follow one another as in an expression unless a point directly follows a closing
parenthesis.
-/
namespace PocketCalculator.Keypad

open Brackets

variable {precision : Nat} {u : List Char} {after : Option Char}

/-! ## Literals -/

theorem literal_mem_literalOf {literal operand : List Char} :
    .literal literal ∈ literalOf operand ↔ operand ≠ [] ∧ literal = operand := by
  unfold literalOf
  split <;> simp_all

theorem isOperand_last_iff {w operand : List Char} :
    (∃ before, IsOperand w before operand []) ↔ lastOperand w ≠ [] ∧ operand = lastOperand w := by
  constructor
  · rintro ⟨before, h⟩
    have hw : w = before ++ operand := by simpa using h.split
    have hlast := lastOperand_of_split h.chars h.left
    rw [← hw] at hlast
    rw [hlast]
    exact ⟨h.ne_nil, rfl⟩
  · rintro ⟨hne, rfl⟩
    obtain ⟨before, hw, hleft⟩ := exists_before_lastOperand w
    exact ⟨before, by simpa using hw, hne, fun c hc => isOperandChar_of_mem_lastOperand hc, hleft,
      by simp⟩

/-- An operand is the last one or stands before a character that no operand has. -/
theorem isOperand_iff_last_or_complete {w operand : List Char} :
    (∃ before rest, IsOperand w before operand rest) ↔
      (∃ before rest, IsOperand w before operand rest ∧ rest ≠ []) ∨
        lastOperand w ≠ [] ∧ operand = lastOperand w := by
  rw [← isOperand_last_iff]
  constructor
  · rintro ⟨before, rest, h⟩
    by_cases hrest : rest = []
    · subst hrest
      exact Or.inr ⟨before, h⟩
    · exact Or.inl ⟨before, rest, h, hrest⟩
  · rintro (⟨before, rest, h, _⟩ | ⟨before, h⟩)
    · exact ⟨before, rest, h⟩
    · exact ⟨before, [], h⟩

theorem isOperand_complete_append {w operand : List Char} {c : Char} :
    (∃ before rest, IsOperand (w ++ [c]) before operand rest ∧ rest ≠ []) ↔
      ∃ before rest, IsOperand w before operand rest ∧
        (rest ≠ [] ∨ isOperandChar c = false) := by
  constructor
  · rintro ⟨before, rest, h, hrest⟩
    obtain ⟨rest', rfl, h'⟩ := h.of_append_complete hrest
    refine ⟨before, rest', h', ?_⟩
    by_cases hnil : rest' = []
    · subst hnil
      exact Or.inr (h.right c (by simp))
    · exact Or.inl hnil
  · rintro ⟨before, rest, h, hc⟩
    exact ⟨before, _, h.append_complete hc, by simp⟩

theorem literal_mem_tokensOf_of_complete {literal : List Char}
    (h : .literal literal ∈ complete u after ↔
      ∃ before rest, IsOperand u before literal rest ∧ rest ≠ []) :
    .literal literal ∈ tokensOf u after ↔ ∃ before rest, IsOperand u before literal rest := by
  rw [tokensOf, List.mem_append, h, literal_mem_literalOf, isOperand_iff_last_or_complete]

theorem literal_mem_complete (hu : ∀ c ∈ u, IsTyped c) (after : Option Char)
    (literal : List Char) :
    .literal literal ∈ complete u after ↔
      ∃ before rest, IsOperand u before literal rest ∧ rest ≠ [] := by
  induction u using List.reverseRecOn generalizing after with
  | nil =>
    refine ⟨fun h => (List.not_mem_nil h).elim, ?_⟩
    rintro ⟨before, rest, h, hrest⟩
    have hsplit := h.split
    simp [hrest] at hsplit
  | append_singleton u c ih =>
    have hu' : ∀ d ∈ u, IsTyped d := fun d hd => hu d (by simp [hd])
    rw [isOperand_complete_append]
    by_cases hc : isOperandChar c = true
    · rw [complete_operandChar hc, ih hu']
      simp only [hc, Bool.true_eq_false, or_false]
    · have hoperands : .literal literal ∈ tokensOf u (some c) ↔
          ∃ before rest, IsOperand u before literal rest :=
        literal_mem_tokensOf_of_complete (ih hu' (some c))
      have hadded : .literal literal ∈ complete (u ++ [c]) after ↔
          .literal literal ∈ tokensOf u (some c) := by
        rcases hu c (by simp) with hc' | ⟨op, rfl⟩ | rfl | rfl
        · exact absurd hc' hc
        · rw [complete_glyph hu', List.mem_append]
          split <;> simp
        · rw [complete_openParen hu', List.mem_append]
          split <;> simp
        · rw [complete_closeParen hu', List.mem_append]
          split <;> simp
      rw [hadded, hoperands]
      simp only [hc, or_true, and_true]

theorem literal_mem_scan (hu : ∀ c ∈ u, IsTyped c) (literal : List Char) :
    .literal literal ∈ Token.scan u ↔ ∃ before rest, IsOperand u before literal rest := by
  rw [scan_eq_tokensOf hu]
  exact literal_mem_tokensOf_of_complete (literal_mem_complete hu none literal)

/-! ## What may follow what -/

/-- A point directly follows a closing parenthesis. -/
def PointAfterClose (w : List Char) : Prop := ∃ u v, w = u ++ ')' :: '.' :: v

theorem pointAfterClose_append {w : List Char} {c : Char} :
    PointAfterClose (w ++ [c]) ↔ PointAfterClose w ∨ w.getLast? = some ')' ∧ c = '.' := by
  constructor
  · rintro ⟨u, v, h⟩
    rcases split_append_singleton h with ⟨hv, _, _⟩ | ⟨v', hv, rfl⟩
    · cases hv
    · cases v' with
      | nil =>
        cases hv
        exact Or.inr ⟨by simp, rfl⟩
      | cons d v' =>
        cases hv
        exact Or.inl ⟨u, v', rfl⟩
  · rintro (⟨u, v, rfl⟩ | ⟨hlast, rfl⟩)
    · exact ⟨u, v ++ [c], by simp⟩
    · obtain ⟨u, rfl⟩ := List.getLast?_eq_some_iff.mp hlast
      exact ⟨u, [], by simp⟩

/-- The frontier after the tokens of a text that goes on with `after`, if they may follow one
another. -/
def frontier (u : List Char) (after : Option Char) : Option Frontier :=
  Frontier.start.run ((tokensOf u after).map Token.shape)

theorem frontier_append_operandChar {c : Char} (hc : isOperandChar c = true) (u : List Char)
    (after : Option Char) :
    frontier (u ++ [c]) after =
      if lastOperand u = [] then
        (frontier u (some c)).bind fun f => f.next (.number (.zero false))
      else frontier u (some c) := by
  have hshape : ∀ text, ([Token.literal text]).map Token.shape = [.number (.zero false)] :=
    fun _ => rfl
  rw [frontier, frontier, tokensOf_append_operandChar hc, tokensOf, List.map_append, hshape,
    Frontier.run_append]
  split
  · rename_i hlast
    rw [literalOf, if_pos hlast, List.append_nil]
    simp only [Frontier.run_singleton]
  · rename_i hlast
    rw [literalOf, if_neg hlast, List.map_append, hshape, Frontier.run_append]

theorem frontier_append_other {c : Char} (hc : ¬isOperandChar c = true) {u : List Char}
    {added : List Token} (h : complete (u ++ [c]) after = tokensOf u (some c) ++ added) :
    frontier (u ++ [c]) after =
      (frontier u (some c)).bind fun f => f.run (added.map Token.shape) := by
  rw [frontier, tokensOf_append_other hc, h, List.map_append, Frontier.run_append]
  rfl

theorem any_isOperandChar_getLast? :
    u.getLast?.any isOperandChar = true ↔ lastOperand u ≠ [] := by
  rcases List.eq_nil_or_concat u with rfl | ⟨v, c, rfl⟩
  · exact ⟨fun h => absurd h Bool.false_ne_true, fun h => absurd rfl h⟩
  · rw [List.concat_eq_append, List.getLast?_concat, lastOperand_append, Option.any_some]
    split <;> simp_all

theorem endsValue_iff : endsValue u after = true ↔
    lastOperand u ≠ [] ∨ u.getLast? = some ')' ∧ after.any Char.isDigit = false := by
  rw [← any_isOperandChar_getLast?, endsValue]
  cases u.getLast? with
  | none => simp
  | some d => simp

/-- What a typable text and the next character say of the frontier. -/
structure Leads (u : List Char) (after : Option Char) : Prop where
  /-- The tokens may follow one another, as long as no point directly follows a group. -/
  some_of_not : ¬PointAfterClose u →
    frontier u after = some ⟨endsValue u after, unclosed u⟩
  none_of_point : PointAfterClose u → frontier u after = none

theorem Leads.append_other {c : Char} {added : List Token} (h : Leads u (some c))
    (hc : ¬isOperandChar c = true)
    (hadded : complete (u ++ [c]) after = tokensOf u (some c) ++ added)
    (hrun : (⟨endsValue u (some c), unclosed u⟩ : Frontier).run (added.map Token.shape) =
      some ⟨endsValue (u ++ [c]) after, unclosed (u ++ [c])⟩) :
    Leads (u ++ [c]) after := by
  have hpoint : PointAfterClose (u ++ [c]) ↔ PointAfterClose u := by
    rw [pointAfterClose_append, or_iff_left]
    rintro ⟨_, rfl⟩
    exact hc rfl
  constructor
  · intro hn
    rw [hpoint] at hn
    rw [frontier_append_other hc hadded, h.some_of_not hn, Option.bind_some, hrun]
  · intro hp
    rw [hpoint] at hp
    rw [frontier_append_other hc hadded, h.none_of_point hp, Option.bind_none]

theorem unclosed_append_operandChar {c : Char} (hc : isOperandChar c = true) (u : List Char) :
    unclosed (u ++ [c]) = unclosed u := by
  have hopen : c ≠ '(' := by rintro rfl; cases hc
  have hclose : c ≠ ')' := by rintro rfl; cases hc
  exact unclosed_append_other hopen hclose

/-- A first character of an operand comes after a value only if it is a point after a group, since
before a digit the end of a group is made a multiplication. -/
theorem endsValue_of_first {c : Char} (hc : isOperandChar c = true) (hlast : lastOperand u = []) :
    endsValue u (some c) = true ↔ u.getLast? = some ')' ∧ c = '.' := by
  rw [endsValue_iff, or_iff_right (not_not.mpr hlast), Option.any_some]
  cases hd : c.isDigit with
  | true =>
    have hne : c ≠ '.' := by rintro rfl; cases hd
    simp [hne]
  | false =>
    have heq : c = '.' := by simpa [isOperandChar, hd] using hc
    simp [heq]

theorem Leads.append_first {c : Char} (h : Leads u (some c)) (hc : isOperandChar c = true)
    (hlast : lastOperand u = []) : Leads (u ++ [c]) after := by
  have hpoint := pointAfterClose_append (w := u) (c := c)
  rw [← endsValue_of_first hc hlast] at hpoint
  constructor
  · intro hn
    rw [hpoint, not_or, Bool.not_eq_true] at hn
    rw [frontier_append_operandChar hc, if_pos hlast, h.some_of_not hn.1, hn.2,
      unclosed_append_operandChar hc, endsValue_operandChar hc]
    rfl
  · intro hp
    rw [frontier_append_operandChar hc, if_pos hlast]
    by_cases hbefore : PointAfterClose u
    · rw [h.none_of_point hbefore, Option.bind_none]
    · rw [h.some_of_not hbefore, (hpoint.mp hp).resolve_left hbefore]
      rfl

theorem Leads.append_next {c : Char} (h : Leads u (some c)) (hc : isOperandChar c = true)
    (hlast : lastOperand u ≠ []) : Leads (u ++ [c]) after := by
  have hsame : PointAfterClose (u ++ [c]) ↔ PointAfterClose u := by
    rw [pointAfterClose_append, or_iff_left]
    rintro ⟨hd, _⟩
    rw [← any_isOperandChar_getLast?, hd] at hlast
    cases hlast
  constructor
  · intro hn
    rw [hsame] at hn
    rw [frontier_append_operandChar hc, if_neg hlast, h.some_of_not hn,
      unclosed_append_operandChar hc, endsValue_operandChar hc, endsValue_iff.mpr (Or.inl hlast)]
  · intro hp
    rw [frontier_append_operandChar hc, if_neg hlast, h.none_of_point (hsame.mp hp)]

theorem Leads.append_operandChar {c : Char} (h : Leads u (some c))
    (hc : isOperandChar c = true) : Leads (u ++ [c]) after := by
  by_cases hlast : lastOperand u = []
  · exact h.append_first hc hlast
  · exact h.append_next hc hlast

/-- An operator that is no sign stands after a value. -/
theorem endsValue_of_mayFollow_glyph {op : Operator} (hu : ∀ c ∈ u, IsTyped c)
    (h : MayFollow precision u op.glyph)
    (hop : op = .subtract → u.getLast?.any isOperandChar = true) :
    endsValue u (some op.glyph) = true := by
  obtain ⟨hleading, hapart⟩ := (mayFollow_glyph op).mp h
  rw [endsValue_iff, ← any_isOperandChar_getLast?]
  cases hlast : u.getLast? with
  | none => exact Or.inl (hlast ▸ hop (hleading (Or.inl (List.getLast?_eq_none_iff.mp hlast))))
  | some d =>
    rcases hu d (List.mem_of_getLast? hlast) with hd | hd | rfl | rfl
    · exact Or.inl hd
    · exact absurd hd (hapart d hlast)
    · exact Or.inl (hlast ▸ hop (hleading (Or.inr hlast)))
    · refine Or.inr ⟨rfl, ?_⟩
      cases op <;> rfl

theorem endsValue_of_mayFollow_closeParen (h : MayFollow precision u ')') :
    endsValue u (some ')') = true := by
  obtain ⟨d, hlast, hd⟩ := h.closing rfl
  have hlast : u.getLast? = some d := hlast
  simp only [endsExpression, Bool.or_eq_true, beq_iff_eq] at hd
  rw [endsValue_iff, ← any_isOperandChar_getLast?, hlast]
  rcases hd with hd | rfl
  · exact Or.inl (isOperandChar_of_isDigit hd)
  · exact Or.inr ⟨rfl, rfl⟩

theorem Leads.append_glyph {op : Operator} (h : Leads u (some op.glyph))
    (hw : Typable precision (u ++ [op.glyph])) : Leads (u ++ [op.glyph]) after := by
  have hu := hw.of_append.typed
  have hunclosed : unclosed (u ++ [op.glyph]) = unclosed u := by
    cases op <;> exact unclosed_append_other (by decide) (by decide)
  have hmay := hw.mayFollow
  refine h.append_other (not_isOperandChar_glyph op) (complete_glyph hu op after) ?_
  rw [(last_tokensOf hu _).1, endsValue_glyph, hunclosed, List.map_singleton,
    Frontier.run_singleton]
  split
  · rfl
  · rename_i hop
    rw [endsValue_of_mayFollow_glyph hu hmay (by simpa using hop)]
    rfl

theorem Leads.append_openParen (h : Leads u (some '('))
    (hw : Typable precision (u ++ ['('])) : Leads (u ++ ['(']) after := by
  have hu := hw.of_append.typed
  refine h.append_other (by decide) (complete_openParen hu after) ?_
  rw [(last_tokensOf hu _).2, hw.unclosed_append_open]
  have hends : endsValue (u ++ ['(']) after = false := by
    rw [endsValue, List.getLast?_concat, Option.any_some]
    rfl
  rw [hends]
  cases endsValue u (some '(') <;> rfl

theorem Leads.append_closeParen (h : Leads u (some ')'))
    (hw : Typable precision (u ++ [')'])) : Leads (u ++ [')']) after := by
  have hu := hw.of_append.typed
  have hunclosed := hw.unclosed_append_close
  have hends := endsValue_of_mayFollow_closeParen hw.mayFollow
  have hends' : endsValue (u ++ [')']) after = !after.any Char.isDigit := by
    rw [endsValue, List.getLast?_concat, Option.any_some]
    cases after.any Char.isDigit <;> rfl
  refine h.append_other (by decide) (complete_closeParen hu after) ?_
  rw [hends, hends', ← hunclosed]
  cases after.any Char.isDigit <;> rfl

theorem Typable.leads (h : Typable precision u) (after : Option Char) : Leads u after := by
  induction u using List.reverseRecOn generalizing after with
  | nil =>
    refine ⟨fun _ => rfl, ?_⟩
    rintro ⟨u, v, hnil⟩
    simp at hnil
  | append_singleton u c ih =>
    have ih := ih h.of_append (some c)
    rcases h.typed c (by simp) with hc | ⟨op, rfl⟩ | rfl | rfl
    · exact ih.append_operandChar hc
    · exact ih.append_glyph h
    · exact ih.append_openParen h
    · exact ih.append_closeParen h

end PocketCalculator.Keypad
