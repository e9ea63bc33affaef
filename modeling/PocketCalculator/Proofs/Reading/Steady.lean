import PocketCalculator.Proofs.Reading.Sound

/-!
# What every reading keeps

Wherever a reader starts, and whether or not it succeeds, it goes on in the tokens and leaves
no fewer groups open than there were. It takes a token wherever there is one.
-/
namespace PocketCalculator

/-- The tokens between two cursors are those that were taken. -/
def Cursor.LeadsTo (c d : Cursor) : Prop :=
  ∃ tokens, c.rest = tokens ++ d.rest ∧ d.position = c.position + tokens.length

namespace Cursor

variable {c d e : Cursor} {token : Token} {rest : List Token}

theorem LeadsTo.refl (c : Cursor) : c.LeadsTo c := ⟨[], rfl, rfl⟩

theorem LeadsTo.trans (h : c.LeadsTo d) (h' : d.LeadsTo e) : c.LeadsTo e := by
  obtain ⟨u, hu, hd⟩ := h
  obtain ⟨w, hw, he⟩ := h'
  refine ⟨u ++ w, by rw [hu, hw, List.append_assoc], ?_⟩
  rw [he, hd, List.length_append, Nat.add_assoc]

theorem LeadsTo.position_le (h : c.LeadsTo d) : c.position ≤ d.position := by
  obtain ⟨tokens, _, hd⟩ := h
  exact hd ▸ Nat.le_add_right _ _

theorem leadsTo_advance (h : c.rest = token :: rest) : c.LeadsTo c.advance := by
  rw [advance_of_cons h]
  exact ⟨[token], h, rfl⟩

theorem leadsTo_skipNegations (c : Cursor) : c.LeadsTo c.skipNegations :=
  ⟨c.rest.takeWhile (· == .negation), List.takeWhile_append_dropWhile.symm, rfl⟩

theorem position_advance (h : c.rest = token :: rest) : c.advance.position = c.position + 1 := by
  rw [advance_of_cons h]

theorem depth_advance (c : Cursor) : c.advance.depth = c.depth := by
  unfold advance
  split <;> rfl

end Cursor

/-- The reading goes on in the tokens, and leaves as many groups open as there were if it
succeeds, or up to `groups` more if it fails. -/
structure Kept (groups : Nat) (c : Cursor) (r : Reading) : Prop where
  leadsTo : c.LeadsTo r.cursor
  depth_eq : ∀ b, r.outcome = .ok b → r.cursor.depth = c.depth
  le_depth : c.depth ≤ r.cursor.depth
  depth_le : r.cursor.depth ≤ c.depth + groups

namespace Kept

variable {groups : Nat} {c d : Cursor} {r : Reading} {left : Branch} {fault : Fault}

theorem of_leadsTo (h : c.LeadsTo d) (hdepth : d.depth = c.depth)
    (outcome : Except Fault Branch) : Kept groups c ⟨outcome, d⟩ :=
  ⟨h, fun _ _ => hdepth, hdepth.ge, by dsimp only; omega⟩

/-- A reading can be preceded by tokens that leave as many groups open. -/
theorem of_later (h : c.LeadsTo d) (hdepth : d.depth = c.depth) (hr : Kept groups d r) :
    Kept groups c r where
  leadsTo := h.trans hr.leadsTo
  depth_eq b hb := (hr.depth_eq b hb).trans hdepth
  le_depth := hdepth ▸ hr.le_depth
  depth_le := hdepth ▸ hr.depth_le

theorem trans (h : Kept groups c ⟨.ok left, d⟩) (hr : Kept groups d r) : Kept groups c r :=
  of_later h.leadsTo (h.depth_eq left rfl) hr

/-- Another outcome may be given to what was read if it is given only to a success. -/
theorem of_outcome (h : Kept groups c r) {outcome : Except Fault Branch}
    (hok : ∀ b, outcome = .ok b → ∃ b', r.outcome = .ok b') :
    Kept groups c ⟨outcome, r.cursor⟩ where
  leadsTo := h.leadsTo
  depth_eq b hb := by
    obtain ⟨b', hb'⟩ := hok b hb
    exact h.depth_eq b' hb'
  le_depth := h.le_depth
  depth_le := h.depth_le

end Kept

/-- The reader takes a token wherever there is one, and refuses the end. -/
structure Reader.Steady (groups : Nat) (r : Reader) : Prop where
  kept : ∀ c, Kept groups c (r c).val
  takes : ∀ c, c.rest ≠ [] → c.position < (r c).val.cursor.position
  at_end : ∀ c, c.rest = [] → (r c).val = ⟨.error .missingOperandAtEnd, c⟩

namespace Reader

variable {precedence groups : Nat} {operand : Reader}

theorem fold_kept (ho : ∀ c, Kept groups c (operand c).val) (left : Branch) (c : Cursor) :
    Kept groups c (fold precedence operand left c).val := by
  have hafter : ∀ {c : Cursor} {token rest}, c.rest = token :: rest →
      Kept groups c (operand c.advance).val := fun hr =>
    .of_later (Cursor.leadsTo_advance hr) (Cursor.depth_advance _) (ho _)
  refine fold_induction ?stop ?fail ?next left c
  case stop => exact fun left c _ => .of_leadsTo (.refl c) rfl _
  case fail =>
    intro left c token rest op fault hr _ _
    exact (hafter hr).of_outcome (by simp)
  case next =>
    intro left c token rest op joined r hr _ hj hrest
    obtain ⟨right, hright, -⟩ := bind_eq_ok hj
    exact ((hafter hr).of_outcome fun _ _ => ⟨right, hright⟩ : Kept _ c ⟨.ok joined, _⟩).trans hrest

theorem Steady.chain (h : operand.Steady groups) : (chain precedence operand).Steady groups where
  kept c := by
    have hfirst := h.kept c
    rw [chain_val]
    cases hl : (operand c).val.outcome with
    | error fault => exact hfirst.of_outcome (by simp)
    | ok left =>
      have hleft : Kept groups c ⟨.ok left, (operand c).val.cursor⟩ :=
        hfirst.of_outcome fun _ _ => ⟨left, hl⟩
      exact hleft.trans (fold_kept h.kept left _)
  takes c hc := by
    have hfirst := h.takes c hc
    rw [chain_val]
    cases hl : (operand c).val.outcome with
    | error fault => exact hfirst
    | ok left => exact Nat.lt_of_lt_of_le hfirst (fold_kept h.kept left _).leadsTo.position_le
  at_end c hc := by rw [chain_val, h.at_end c hc]

theorem Steady.signed {primary : Reader} (h : primary.Steady groups) :
    (signed primary).Steady groups where
  kept c := by
    have hprimary : Kept groups c (primary c.skipNegations).val :=
      .of_later c.leadsTo_skipNegations rfl (h.kept _)
    rw [signed_val]
    split
    · exact hprimary
    · refine hprimary.of_outcome fun b hb => ?_
      obtain ⟨operand, hoperand, -⟩ := bind_eq_ok hb
      exact ⟨operand, hoperand⟩
  takes c hc := by
    have hcursor : (Reader.signed primary c).val.cursor =
        (primary c.skipNegations).val.cursor := by
      rw [signed_val]
      split <;> rfl
    rw [hcursor]
    by_cases hnil : c.skipNegations.rest = []
    · -- Then all tokens are negations.
      rw [h.at_end _ hnil]
      obtain ⟨tokens, hrest, hposition⟩ := c.leadsTo_skipNegations
      rw [hnil, List.append_nil] at hrest
      have hpos := List.length_pos_iff.mpr (hrest ▸ hc)
      dsimp only
      omega
    · exact Nat.lt_of_le_of_lt c.leadsTo_skipNegations.position_le (h.takes _ hnil)
  at_end c hc := by
    have hskip : c.skipNegations = c := by
      obtain ⟨tokens, position, depth⟩ := c
      dsimp only at hc
      rw [hc]
      rfl
    rw [signed_val, hskip, h.at_end c hc]
    split <;> rfl

theorem Steady.expression {primary : Reader} (h : primary.Steady groups) :
    (expression primary).Steady groups := h.signed.chain.chain

/-- Once the expression inside has been read, the group is no longer open. -/
theorem closeGroup_kept (branch : Branch) (c : Cursor) :
    Kept groups c (closeGroup branch c) := by
  unfold closeGroup
  split
  · exact .of_leadsTo (.refl c) rfl _
  · rename_i rest hrest
    exact .of_leadsTo (Cursor.leadsTo_advance hrest) c.depth_advance _
  · rename_i token rest _ hrest
    exact .of_leadsTo (Cursor.leadsTo_advance hrest) c.depth_advance _

theorem Steady.group {inner : Reader} (h : inner.Steady groups) (c : Cursor) :
    Kept (groups + 1) c (group inner c).val := by
  have hinner := h.kept { c with depth := c.depth + 1 }
  rw [group_val]
  cases hr : (inner { c with depth := c.depth + 1 }).val with
  | mk outcome next =>
    rw [hr] at hinner
    have hle := hinner.le_depth
    have hge := hinner.depth_le
    dsimp only at hle hge
    cases outcome with
    | error fault =>
      refine ⟨hinner.leadsTo, fun b hb => ?_, ?_, ?_⟩
      · cases hb
      · dsimp only
        omega
      · dsimp only
        omega
    | ok branch =>
      have hdepth := hinner.depth_eq branch rfl
      dsimp only at hdepth
      have hleads : c.LeadsTo { next with depth := next.depth - 1 } := hinner.leadsTo
      have hclosed : next.depth - 1 = c.depth := by omega
      exact .of_later hleads hclosed (closeGroup_kept branch _)

theorem steady_atom {inside : Reader} (h : ∀ c, Kept groups c (inside c).val) :
    (atom inside).Steady groups := by
  refine ⟨fun c => ?_, fun c hc => ?_, fun c hc => atom_of_nil hc⟩
  · by_cases hnil : c.rest = []
    · rw [atom_of_nil hnil]
      exact .of_leadsTo (.refl c) rfl _
    · obtain ⟨token, rest, hr⟩ := List.exists_cons_of_ne_nil hnil
      have hadvance := Cursor.leadsTo_advance hr
      rcases atom_val_of_cons inside hr with ⟨outcome, hatom⟩ | hatom
      · rw [hatom]
        exact .of_leadsTo hadvance c.depth_advance _
      · rw [hatom]
        exact .of_later hadvance c.depth_advance (h _)
  · obtain ⟨token, rest, hr⟩ := List.exists_cons_of_ne_nil hc
    have hlt : c.position < c.advance.position := by
      rw [Cursor.position_advance hr]
      exact Nat.lt_succ_self _
    rcases atom_val_of_cons inside hr with ⟨outcome, hatom⟩ | hatom
    · rw [hatom]
      exact hlt
    · rw [hatom]
      exact Nat.lt_of_lt_of_le hlt (h _).leadsTo.position_le

theorem steady_primary (groups : Nat) : (primary groups).Steady groups := by
  induction groups with
  | zero => exact steady_atom fun c => .of_leadsTo (.refl c) rfl _
  | succ groups ih => exact steady_atom ih.expression.group

end Reader

end PocketCalculator
