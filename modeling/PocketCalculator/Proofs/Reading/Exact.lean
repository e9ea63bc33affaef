import PocketCalculator.Proofs.Reading.Complete

/-!
# Reading is exact

A token list is read as a tree exactly when it denotes that tree within both limits. A list
that denotes a tree beyond a limit is refused by naming a limit that is exceeded.
-/
namespace PocketCalculator

open Brackets

theorem parenthesisFault_go_eq_none (index opened : Nat) (tokens : List Token) :
    parenthesisFault.go index opened tokens = none ↔ Token.brackets.ClosesAll opened tokens := by
  induction tokens generalizing index opened with
  | nil =>
    rw [parenthesisFault.go, closesAll_nil]
    split <;> simp_all
  | cons token rest ih =>
    by_cases ho : token = .openParen
    · subst ho
      rw [parenthesisFault.go, ih]
      exact (closesAll_opening (b := Token.brackets)).symm
    · by_cases hc : token = .closeParen
      · subst hc
        rw [parenthesisFault.go]
        cases opened with
        | zero =>
          rw [if_pos rfl]
          refine ⟨fun h => ?_, fun h => ?_⟩
          · cases h
          · exact absurd h (not_closesAll_zero_closing (b := Token.brackets))
        | succ opened =>
          rw [if_neg (Nat.succ_ne_zero opened), ih, Nat.add_sub_cancel]
          exact (closesAll_closing (b := Token.brackets)).symm
      · rw [parenthesisFault.go, ih]
        · exact (closesAll_other (b := Token.brackets) ho hc).symm
        · exact ho
        · exact hc

theorem parenthesisFault_eq_none {tokens : List Token} :
    parenthesisFault tokens = none ↔ Token.brackets.Balanced tokens :=
  parenthesisFault_go_eq_none 0 0 tokens

namespace Expression

/-- Balanced tokens are read as one expression that has to end where they end. -/
theorem parseFrom_of_balanced {tokens : List Token} (hb : Token.brackets.Balanced tokens)
    (hne : tokens ≠ []) (c : Cursor) :
    parseFrom tokens c =
      match (Reader.expression (Reader.primary (maxGroups - c.depth)) c).val with
      | ⟨outcome, next⟩ => (outcome.bind fun branch =>
        match next.rest with
        | [] => .ok branch.tree
        | .closeParen :: _ => .error (.unmatchedClose next.position)
        | token :: _ => .error (.missingOperator token), next) := by
  have hempty : tokens.isEmpty = false := by simpa using hne
  simp only [parseFrom, parenthesisFault_eq_none.mpr hb, hempty]
  rfl

theorem ofTokens_of_balanced {tokens : List Token} (hb : Token.brackets.Balanced tokens)
    (hne : tokens ≠ []) :
    ofTokens tokens =
      match (Reader.expression (Reader.primary maxGroups) (Cursor.start tokens)).val with
      | ⟨outcome, next⟩ => outcome.bind fun branch =>
        match next.rest with
        | [] => .ok branch.tree
        | .closeParen :: _ => .error (.unmatchedClose next.position)
        | token :: _ => .error (.missingOperator token) := by
  rw [ofTokens, parseFrom_of_balanced hb hne]
  rfl

/-- Balanced tokens are read as a tree only where the expression ends with them. -/
theorem parseFrom_eq_ok {tokens : List Token} (hb : Token.brackets.Balanced tokens)
    (hne : tokens ≠ []) {c : Cursor} {t : Expression} (h : (parseFrom tokens c).1 = .ok t) :
    let r := (Reader.expression (Reader.primary (maxGroups - c.depth)) c).val
    ∃ b, r.outcome = .ok b ∧ r.cursor.rest = [] ∧ b.tree = t := by
  intro r
  rw [parseFrom_of_balanced hb hne] at h
  obtain ⟨b, hread, hend⟩ := Reader.bind_eq_ok h
  refine ⟨b, hread, ?_⟩
  split at hend
  · rename_i hnil
    exact ⟨hnil, Except.ok.inj hend⟩
  · cases hend
  · cases hend

/-- Reading balanced tokens fails as the descent does, or by what follows the expression. -/
theorem parseFrom_eq_error {tokens : List Token} (hb : Token.brackets.Balanced tokens)
    (hne : tokens ≠ []) {c : Cursor} {fault : Fault} (h : (parseFrom tokens c).1 = .error fault) :
    let r := (Reader.expression (Reader.primary (maxGroups - c.depth)) c).val
    r.outcome = .error fault ∨ ∃ b token rest, r.outcome = .ok b ∧ r.cursor.rest = token :: rest ∧
      (token = .closeParen ∧ fault = .unmatchedClose r.cursor.position ∨
        token ≠ .closeParen ∧ fault = .missingOperator token) := by
  intro r
  rw [parseFrom_of_balanced hb hne] at h
  rcases Reader.bind_eq_error h with hread | ⟨b, hread, hend⟩
  · exact Or.inl hread
  · split at hend
    · cases hend
    · rename_i rest hclose
      exact Or.inr ⟨b, _, rest, hread, hclose, Or.inl ⟨rfl, (Except.error.inj hend).symm⟩⟩
    · rename_i token rest hother hrest
      exact Or.inr ⟨b, token, rest, hread, hrest, Or.inr ⟨hother, (Except.error.inj hend).symm⟩⟩

theorem denotes_of_ofTokens {tokens : List Token} {t : Expression} (h : ofTokens tokens = .ok t) :
    Denotes tokens t ∧ Token.brackets.NestsWithin maxGroups tokens ∧ t.height ≤ maxHeight := by
  have hb : Token.brackets.Balanced tokens := by
    rw [← parenthesisFault_eq_none]
    cases hf : parenthesisFault tokens with
    | none => rfl
    | some fault => simp [ofTokens, parseFrom, hf] at h
  have hne : tokens ≠ [] := by
    rintro rfl
    cases h
  obtain ⟨branch, hread, hend, rfl⟩ := parseFrom_eq_ok hb hne h
  obtain ⟨w, hw, hd⟩ := Reader.expression_sound (Reader.primary_sound maxGroups) _ branch hread
  obtain ⟨taken, htaken, hrest⟩ := hw.taken
  obtain rfl : tokens = taken := hrest.trans ((congrArg _ hend).trans (List.append_nil taken))
  refine ⟨⟨w, htaken, hd⟩, (Reads.nestsWithin_iff htaken).mpr hw.nests, ?_⟩
  rw [← branch.height_eq]
  exact branch.height_le

theorem ofTokens_of_denotes {tokens : List Token} {t : Expression} (h : Denotes tokens t) :
    ofTokens tokens = .ok t ∨ ∃ limit, ofTokens tokens = .error (.tooDeep limit) ∧
      (limit = maxGroups ∧ ¬Token.brackets.NestsWithin maxGroups tokens ∨
        limit = maxHeight ∧ maxHeight < t.height) := by
  have hb := h.balanced
  have hne := h.ne_nil
  obtain ⟨w, hw, hd⟩ := h
  have hc := Reader.expression_complete (Reader.primary_complete maxGroups) w t hd tokens [] 0 0
    hw Reader.afterExpression_nil
  rw [List.append_nil] at hc
  rw [ofTokens_of_balanced hb hne]
  rcases hc with ⟨b, hb', rfl⟩ | ⟨limit, hlimit, hexceeds⟩
  · refine Or.inl ?_
    rw [Cursor.start, hb']
    rfl
  · refine Or.inr ⟨limit, ?_, ?_⟩
    · rw [Cursor.start]
      cases hr : (Reader.expression (Reader.primary maxGroups) ⟨tokens, 0, 0⟩).val with
      | mk outcome next =>
        rw [hr] at hlimit
        cases hlimit
        rfl
    · rcases hexceeds with ⟨hl, hn⟩ | hheight
      · exact Or.inl ⟨hl, fun h' => hn ((Reads.nestsWithin_iff hw).mp h')⟩
      · exact Or.inr hheight

/-- The reader accepts exactly the sequences of the grammar whose literals are operands,
within the limits on open groups and on the height of the tree, and gives the tree that the
grammar gives; beyond a limit it names one that is exceeded. -/
theorem ofTokens_exact (tokens : List Token) :
    (∀ t, ofTokens tokens = .ok t ↔
      Denotes tokens t ∧ Token.brackets.NestsWithin maxGroups tokens ∧ t.height ≤ maxHeight) ∧
    ∀ t, Denotes tokens t →
      ¬(Token.brackets.NestsWithin maxGroups tokens ∧ t.height ≤ maxHeight) →
      ∃ limit, ofTokens tokens = .error (.tooDeep limit) ∧
        (limit = maxGroups ∧ ¬Token.brackets.NestsWithin maxGroups tokens ∨
          limit = maxHeight ∧ maxHeight < t.height) := by
  refine ⟨fun t => ⟨denotes_of_ofTokens, ?_⟩, fun t h hlimits => ?_⟩
  · rintro ⟨h, hn, hh⟩
    rcases ofTokens_of_denotes h with hok | ⟨limit, _, ⟨_, hx⟩ | ⟨_, hx⟩⟩
    · exact hok
    · exact absurd hn hx
    · omega
  · rcases ofTokens_of_denotes h with hok | hlimit
    · exact absurd (denotes_of_ofTokens hok).2 hlimits
    · exact hlimit

end Expression

end PocketCalculator
