import PocketCalculator.Proofs.Operand
import PocketCalculator.Proofs.Reading.Exact

/-!
# How reading fails

Where the parentheses are balanced, reading fails only because of a literal that is no
operand, a value or an operator that is missing, or a limit.
-/
namespace PocketCalculator

open Brackets

/-- A cause of failure that does not lie in the parentheses. -/
def Fault.InReading (fault : Fault) : Prop :=
  fault.kind = .numberFormat ∨ fault.kind = .tooDeep

theorem inReading_of_readOperand {literal : List Char} {fault : Fault}
    (h : readOperand literal = .error fault) : fault.InReading := by
  rcases fault_of_readOperand h with ⟨c, rfl⟩ | rfl | rfl <;> exact Or.inl rfl

/-- What is taken closes its own groups, so the rest closes those that were open. -/
theorem Moves.closesAll {groups : Nat} {c next : Cursor} {w : List Terminal}
    (h : Moves groups c w next) (hb : Terminal.brackets.Balanced w)
    (hc : Token.brackets.ClosesAll c.depth c.rest) :
    Token.brackets.ClosesAll next.depth next.rest := by
  obtain ⟨tokens, htokens, hrest⟩ := h.taken
  have hbalanced : Token.brackets.Balanced tokens :=
    (closesAll_iff_of_marks (matching_terminal.marks_eq htokens)).mpr hb
  rw [hrest, closesAll_append hbalanced] at hc
  rwa [h.depth]

/-- Where the rest closes all open groups, the reader does not fail by the parentheses. -/
def Reader.Orderly (r : Reader) : Prop :=
  ∀ c fault, Token.brackets.ClosesAll c.depth c.rest → (r c).val.outcome = .error fault →
    fault.InReading

namespace Reader

theorem fault_of_join {op : Operator} {left right : Branch} {fault : Fault}
    (h : Branch.join op left right = .error fault) :
    fault = .tooDeep Expression.maxHeight := by
  rcases join_answers op left right with ⟨b, hb, -⟩ | ⟨hb, -⟩ <;> rw [hb] at h <;> cases h
  rfl

theorem fault_of_negate {b : Branch} {fault : Fault} (h : b.negate = .error fault) :
    fault = .tooDeep Expression.maxHeight := by
  rcases negate_answers b with ⟨b', hb, -⟩ | ⟨hb, -⟩ <;> rw [hb] at h <;> cases h
  rfl

theorem inReading_tooDeep (limit : Nat) : (Fault.tooDeep limit).InReading := Or.inr rfl

theorem fold_orderly {precedence groups : Nat} {outer inner : Category} {operand : Reader}
    (hop : FoldsFor precedence outer inner) (hs : operand.Sound inner groups)
    (ho : operand.Orderly) {c : Cursor} {left : Branch} {fault : Fault}
    (hc : Token.brackets.ClosesAll c.depth c.rest)
    (h : (fold precedence operand left c).val.outcome = .error fault) : fault.InReading := by
  have hadvance : ∀ {c : Cursor} {token rest op}, c.rest = token :: rest →
      operatorAt precedence token = some op → Token.brackets.ClosesAll c.depth c.rest →
      Token.brackets.ClosesAll c.advance.depth c.advance.rest := by
    intro c token rest op hr hop' hc
    obtain ⟨x, hx, hjoins⟩ := (hop token op).mp hop'
    have hadv : Moves groups c [x] c.advance :=
      .advance hr hx hjoins.ne_parens.1 hjoins.ne_parens.2
    exact hadv.closesAll (balanced_nil.cons_other hjoins.ne_parens.1 hjoins.ne_parens.2) hc
  refine fold_induction (motive := fun _ c r => Token.brackets.ClosesAll c.depth c.rest →
    r.outcome = .error fault → fault.InReading) ?stop ?fail ?next left c hc h
  case stop =>
    intro left c _ _ h
    cases h
  case fail =>
    intro left c token rest op fault' hr hop' hj hc h
    cases h
    rcases bind_eq_error hj with hoperand | ⟨right, _, hjoin⟩
    · exact ho _ _ (hadvance hr hop' hc) hoperand
    · exact fault_of_join hjoin ▸ inReading_tooDeep _
  case next =>
    intro left c token rest op joined r hr hop' hj ih hc h
    obtain ⟨right, hright, _⟩ := bind_eq_ok hj
    obtain ⟨w, hw, hd⟩ := hs c.advance right hright
    exact ih (hw.closesAll hd.balanced (hadvance hr hop' hc)) h

theorem chain_orderly {precedence groups : Nat} {outer inner : Category} {operand : Reader}
    (hop : FoldsFor precedence outer inner) (hs : operand.Sound inner groups)
    (ho : operand.Orderly) : (chain precedence operand).Orderly := by
  intro c fault hc h
  rw [chain_val] at h
  cases hl : (operand c).val.outcome with
  | error fault' =>
    simp only [hl, Except.error.injEq] at h
    subst h
    exact ho c fault' hc hl
  | ok left =>
    simp only [hl] at h
    obtain ⟨w, hw, hd⟩ := hs c left hl
    exact fold_orderly hop hs ho (hw.closesAll hd.balanced hc) h

theorem signed_orderly {primary : Reader} (hp : primary.Orderly) : (signed primary).Orderly := by
  intro c fault hc h
  have hskip := (Moves.skipNegations 0 c).closesAll (balanced_replicate_negation _) hc
  rw [signed_val] at h
  split at h
  · exact hp _ _ hskip h
  · rcases bind_eq_error h with hprimary | ⟨b, _, hnegate⟩
    · exact hp _ _ hskip hprimary
    · exact fault_of_negate hnegate ▸ inReading_tooDeep _

theorem expression_orderly {groups : Nat} {primary : Reader}
    (hs : primary.Sound .primary groups) (hp : primary.Orderly) :
    (expression primary).Orderly :=
  chain_orderly foldsFor_expression (chain_sound .term foldsFor_term (signed_sound hs))
    (chain_orderly foldsFor_term (signed_sound hs) (signed_orderly hp))

/-- An expression in a group that is closed later is not read up to the end. -/
theorem group_orderly {groups : Nat} {inner : Reader} (hs : inner.Sound .expression groups)
    (hi : inner.Orderly) {c : Cursor} {fault : Fault}
    (hc : Token.brackets.ClosesAll (c.depth + 1) c.rest)
    (h : (group inner c).val.outcome = .error fault) : fault.InReading := by
  rw [group_val] at h
  have hsound := hs { c with depth := c.depth + 1 }
  have horderly := hi { c with depth := c.depth + 1 }
  cases hin : (inner { c with depth := c.depth + 1 }).val with
  | mk outcome next =>
    rw [hin] at h hsound horderly
    cases outcome with
    | error fault' =>
      cases h
      exact horderly fault hc rfl
    | ok branch =>
      obtain ⟨w, hw, hd⟩ := hsound branch rfl
      have hrest := hw.closesAll hd.balanced hc
      rw [hw.depth] at hrest
      dsimp only [closeGroup] at h
      split at h
      · rename_i hnil
        rw [hnil, closesAll_nil] at hrest
        cases hrest
      · cases h
      · cases h
        exact Or.inl rfl

theorem atom_orderly {inside : Reader}
    (hi : ∀ (c : Cursor) (fault : Fault) (rest : List Token), c.rest = .openParen :: rest →
      Token.brackets.ClosesAll c.depth c.rest →
      (inside c.advance).val.outcome = .error fault → fault.InReading) :
    (atom inside).Orderly := by
  intro c fault hc h
  cases hr : c.rest with
  | nil =>
    rw [atom_of_nil hr] at h
    cases h
    exact Or.inl rfl
  | cons token rest =>
    by_cases ho : token = .openParen
    · subst ho
      rw [atom_of_openParen hr] at h
      exact hi c fault rest hr hc h
    · cases hl : token.isLiteral with
      | false =>
        obtain ⟨fault', hf, hkind⟩ := atom_outcome_error inside hr hl ho
        rw [hf] at h
        cases h
        rcases hkind with hkind | ⟨rfl, hdepth⟩
        · exact Or.inl hkind
        · rw [hr, hdepth] at hc
          exact absurd hc (not_closesAll_zero_closing (b := Token.brackets))
      | true =>
        cases token with
        | literal text =>
          rw [atom_of_literal hr] at h
          cases hread : readOperand text with
          | error fault' =>
            simp only [hread, Except.map, Except.error.injEq] at h
            subst h
            exact inReading_of_readOperand hread
          | ok value => simp [hread, Except.map] at h
        | _ => cases hl

theorem primary_orderly (groups : Nat) : (primary groups).Orderly := by
  induction groups with
  | zero =>
    refine atom_orderly fun c fault rest _ _ h => ?_
    cases h
    exact Or.inr rfl
  | succ groups ih =>
    refine atom_orderly fun c fault rest hr hc h => ?_
    have hsound := primary_sound groups
    refine group_orderly (expression_sound hsound) (expression_orderly hsound ih) ?_ h
    rw [hr] at hc
    rw [Cursor.advance_of_cons hr]
    exact (closesAll_opening (b := Token.brackets)).mp hc

end Reader

theorem Expression.inReading_of_balanced {tokens : List Token} {fault : Fault}
    (hb : Token.brackets.Balanced tokens) (h : ofTokens tokens = .error fault) :
    fault.InReading := by
  by_cases hne : tokens = []
  · subst hne
    cases h
    exact Or.inl rfl
  have hsound := Reader.primary_sound (maxGroups - (Cursor.start tokens).depth)
  rcases parseFrom_eq_error hb hne h with hread | ⟨branch, token, rest, hread, hrest, hend⟩
  · exact Reader.expression_orderly hsound (Reader.primary_orderly _) (.start tokens) fault hb hread
  · obtain ⟨w, hw, hd⟩ := Reader.expression_sound hsound _ branch hread
    rcases hend with ⟨rfl, -⟩ | ⟨-, rfl⟩
    · -- A closing parenthesis that is left would close no group.
      have hleft := hw.closesAll hd.balanced hb
      rw [hw.depth, hrest] at hleft
      exact absurd hleft (not_closesAll_zero_closing (b := Token.brackets))
    · exact Or.inl rfl

end PocketCalculator
