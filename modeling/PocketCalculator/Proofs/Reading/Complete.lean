import PocketCalculator.Proofs.Reading.Sound

/-!
# Derivations are read

A phrase with something after it that does not continue it is taken by the reader of its
category, which then gives its tree, unless one of the two limits is exceeded.
-/
namespace PocketCalculator

open Brackets

/-- The limits that reading a phrase can exceed: groups may be nested `groups` deep, and its
tree may be `maxHeight` high. -/
def Exceeds (groups : Nat) (w : List Terminal) (t : Expression) (limit : Nat) : Prop :=
  limit = maxGroups ∧ ¬Terminal.brackets.NestsWithin groups w ∨
    limit = Expression.maxHeight ∧ Expression.maxHeight < t.height

theorem Exceeds.mono {groups groups' limit : Nat} {w w' : List Terminal} {t t' : Expression}
    (h : Exceeds groups w t limit)
    (hn : Terminal.brackets.NestsWithin groups' w' → Terminal.brackets.NestsWithin groups w)
    (ht : t.height ≤ t'.height) : Exceeds groups' w' t' limit := by
  rcases h with ⟨hl, hw⟩ | ⟨hl, hh⟩
  · exact Or.inl ⟨hl, fun h' => hw (hn h')⟩
  · exact Or.inr ⟨hl, Nat.lt_of_lt_of_le hh ht⟩

/-- A reading gives the tree of a phrase and stops at the given cursor, or names a limit that
the phrase exceeds. -/
def Reading.Answers (groups : Nat) (w : List Terminal) (t : Expression) (next : Cursor)
    (r : Reading) : Prop :=
  (∃ b, r = ⟨.ok b, next⟩ ∧ b.tree = t) ∨
    ∃ limit, r.outcome = .error (.tooDeep limit) ∧ Exceeds groups w t limit

/-- Every phrase of the category is read when what follows it does not continue it. -/
def Reader.Complete (category : Category) (groups : Nat) (stops : List Token → Prop)
    (r : Reader) : Prop :=
  ∀ w t, Derives category w t → ∀ tokens rest position depth, Reads tokens w → stops rest →
    Reading.Answers groups w t ⟨rest, position + w.length, depth⟩
      (r ⟨tokens ++ rest, position, depth⟩).val

namespace Reader

theorem join_answers (op : Operator) (left right : Branch) :
    (∃ b, Branch.join op left right = .ok b ∧ b.tree = .binary op left.tree right.tree) ∨
      Branch.join op left right = .error (.tooDeep Expression.maxHeight) ∧
        Expression.maxHeight < (Expression.binary op left.tree right.tree).height := by
  by_cases h : max left.height right.height + 1 ≤ Expression.maxHeight
  · exact Or.inl ⟨_, dif_pos h, rfl⟩
  · refine Or.inr ⟨dif_neg h, ?_⟩
    rw [Expression.height, ← left.height_eq, ← right.height_eq]
    omega

theorem negate_answers (operand : Branch) :
    (∃ b, operand.negate = .ok b ∧ b.tree = .negate operand.tree) ∨
      operand.negate = .error (.tooDeep Expression.maxHeight) ∧
        Expression.maxHeight < (Expression.negate operand.tree).height := by
  by_cases h : operand.height + 1 ≤ Expression.maxHeight
  · exact Or.inl ⟨_, dif_pos h, rfl⟩
  · refine Or.inr ⟨dif_neg h, ?_⟩
    rw [Expression.height, ← operand.height_eq]
    omega

/-- Reading a folded phrase gets as far as the fold that has its tree as the left side. -/
theorem chain_reaches_fold {precedence groups : Nat} {outer inner : Category} {operand : Reader}
    {stops : List Token → Prop} (hf : Folds outer inner) (hop : FoldsFor precedence outer inner)
    (hstops : ∀ token op rest, operatorAt precedence token = some op → stops (token :: rest))
    (ho : operand.Complete inner groups stops) {w : List Terminal} {t : Expression}
    (h : Derives outer w t) :
    ∀ tokens rest position depth, Reads tokens w → stops rest →
      (∃ b, b.tree = t ∧ (chain precedence operand ⟨tokens ++ rest, position, depth⟩).val =
        (fold precedence operand b ⟨rest, position + w.length, depth⟩).val) ∨
      ∃ limit, (chain precedence operand ⟨tokens ++ rest, position, depth⟩).val.outcome =
        .error (.tooDeep limit) ∧ Exceeds groups w t limit := by
  refine Derives.fold_induction hf ?operand ?join h
  case operand =>
    intro w t h tokens rest position depth hr hs
    rw [chain_val]
    rcases ho w t h tokens rest position depth hr hs with ⟨b, hb, rfl⟩ | ⟨limit, hl, hx⟩
    · exact Or.inl ⟨b, rfl, by rw [hb]⟩
    · exact Or.inr ⟨limit, by rw [hl], hx⟩
  case join =>
    intro u x op w l r hl ihl hj hr' tokens rest position depth hr hs
    obtain ⟨us, xs, rfl, hus, hxs⟩ := hr.append_inv
    obtain ⟨token, ws, rfl, hx, hws⟩ := hxs.cons_inv
    have hop' := (hop token op).mpr ⟨x, hx, hj⟩
    have hnests : Terminal.brackets.NestsWithin groups (u ++ x :: w) →
        Terminal.brackets.NestsWithin groups u ∧ Terminal.brackets.NestsWithin groups w := by
      intro hn
      rw [nestsWithin_append hl.balanced, nestsWithin_other hj.ne_parens.1 hj.ne_parens.2] at hn
      exact hn
    -- The whole exceeds every limit that a side exceeds, and joining may exceed that of the height.
    rw [List.append_assoc, List.cons_append]
    rcases ihl us (token :: (ws ++ rest)) position depth hus (hstops _ _ _ hop') with
      ⟨left, rfl, hleft⟩ | ⟨limit, hlimit, hexceeds⟩
    · rw [hleft, fold_of_operator rfl hop', Cursor.advance_of_cons rfl]
      rcases ho w r hr' ws rest (position + u.length + 1) depth hws hs with
        ⟨right, hright, rfl⟩ | ⟨limit, hlimit, hexceeds⟩
      · rw [hright]
        rcases join_answers op left right with ⟨b, hb, htree⟩ | ⟨hb, hheight⟩
        · refine Or.inl ⟨b, htree, ?_⟩
          simp only [Except.bind, hb]
          congr 3
          simp only [List.length_append, List.length_cons]
          omega
        · exact Or.inr ⟨_, by simp only [Except.bind, hb], Or.inr ⟨rfl, hheight⟩⟩
      · refine Or.inr ⟨limit, by simp only [hlimit, Except.bind], hexceeds.mono ?_ ?_⟩
        · exact fun hn => (hnests hn).2
        · simp only [Expression.height]
          omega
    · refine Or.inr ⟨limit, hlimit, hexceeds.mono ?_ ?_⟩
      · exact fun hn => (hnests hn).1
      · simp only [Expression.height]
        omega

theorem chain_complete {precedence groups : Nat} {outer inner : Category} {operand : Reader}
    {stops : List Token → Prop} (hf : Folds outer inner) (hop : FoldsFor precedence outer inner)
    (hstops : ∀ token op rest, operatorAt precedence token = some op → stops (token :: rest))
    (ho : operand.Complete inner groups stops) :
    (chain precedence operand).Complete outer groups
      fun rest => stops rest ∧ StopsAt precedence rest := by
  intro w t h tokens rest position depth hr hs
  rcases chain_reaches_fold hf hop hstops ho h tokens rest position depth hr hs.1 with
    ⟨b, rfl, hb⟩ | hlimit
  · rw [fold_of_stopsAt hs.2] at hb
    exact Or.inl ⟨b, hb, rfl⟩
  · exact Or.inr hlimit

theorem ne_negation_of_primary {w : List Terminal} {t : Expression} (h : Derives .primary w t)
    {tokens : List Token} (hr : Reads tokens w) (rest : List Token) :
    ∃ token after, tokens ++ rest = token :: after ∧ token ≠ .negation := by
  rcases h.primary_cases with ⟨value, rfl, _⟩ | ⟨inner, rfl, _⟩
  · obtain ⟨token, after, rfl, hx, _⟩ := hr.cons_inv
    obtain ⟨text, rfl, _⟩ := Token.of_terminal hx
    exact ⟨_, _, rfl, by simp⟩
  · obtain ⟨token, after, rfl, hx, _⟩ := hr.cons_inv
    cases Token.of_terminal hx
    exact ⟨_, _, rfl, by simp⟩

theorem reads_replicate_negation {tokens : List Token} {n : Nat}
    (h : Reads tokens (List.replicate n .negation)) : tokens = List.replicate n .negation := by
  induction n generalizing tokens with
  | zero => exact List.forall₂_nil_right_iff.mp h
  | succ n ih =>
    obtain ⟨token, rest, rfl, hx, hr⟩ := Reads.cons_inv h
    cases Token.of_terminal hx
    rw [ih hr, List.replicate_succ]

theorem skipNegations_replicate (n : Nat) {tokens after : List Token} {token : Token}
    (h : tokens = token :: after) (hne : token ≠ .negation) (position depth : Nat) :
    (List.replicate n Token.negation ++ tokens).takeWhile (· == .negation) =
        List.replicate n .negation ∧
      (Cursor.mk (List.replicate n Token.negation ++ tokens) position depth).skipNegations =
        ⟨tokens, position + n, depth⟩ := by
  have hall : ∀ x ∈ List.replicate n Token.negation, (x == Token.negation) = true := by simp
  have hsigns : (List.replicate n Token.negation ++ tokens).takeWhile (· == .negation) =
      List.replicate n .negation := by
    rw [List.takeWhile_append_of_pos hall, h, List.takeWhile_cons_of_neg (by simpa using hne),
      List.append_nil]
  refine ⟨hsigns, ?_⟩
  rw [Cursor.skipNegations, hsigns, List.dropWhile_append_of_pos hall, h,
    List.dropWhile_cons_of_neg (by simpa using hne), List.length_replicate]

theorem signed_complete {groups : Nat} {primary : Reader}
    (hp : primary.Complete .primary groups fun _ => True) :
    (signed primary).Complete .unary groups fun _ => True := by
  intro w t h tokens rest position depth hr _
  obtain ⟨n, v, s, rfl, rfl, hd⟩ := h.unary_cases
  obtain ⟨ns, vs, rfl, hns, hvs⟩ := hr.append_inv
  obtain rfl := reads_replicate_negation hns
  obtain ⟨token, after, hv, hne⟩ := ne_negation_of_primary hd hvs rest
  obtain ⟨hsigns, hskip⟩ := skipNegations_replicate n hv hne position depth
  have hnests : Terminal.brackets.NestsWithin groups (List.replicate n .negation ++ v) →
      Terminal.brackets.NestsWithin groups v := fun hn =>
    ((nestsWithin_append (balanced_replicate_negation n)).mp hn).2
  rw [List.append_assoc, signed_val, hskip]
  simp only [hsigns, List.length_replicate, List.length_append, ← Nat.add_assoc]
  rcases hp v s hd vs rest (position + n) depth hvs trivial with
    ⟨b, hb, rfl⟩ | ⟨limit, hlimit, hexceeds⟩
  · rw [hb]
    by_cases hn : n % 2 = 0
    · exact Or.inl ⟨b, by simp [hn], by simp [Expression.negateTimes, hn]⟩
    · simp only [hn, ↓reduceIte, Expression.negateTimes]
      rcases negate_answers b with ⟨b', hb', htree⟩ | ⟨hb', hheight⟩
      · exact Or.inl ⟨b', by simp only [Except.bind, hb'], htree⟩
      · exact Or.inr ⟨_, by simp only [Except.bind, hb'], Or.inr ⟨rfl, hheight⟩⟩
  · refine Or.inr ⟨limit, ?_, hexceeds.mono hnests ?_⟩
    · split
      · exact hlimit
      · simp only [hlimit, Except.bind]
    · rw [Expression.negateTimes]
      split
      · exact Nat.le_refl _
      · exact Nat.le_succ _

theorem expression_complete {groups : Nat} {primary : Reader}
    (hp : primary.Complete .primary groups fun _ => True) :
    (expression primary).Complete .expression groups AfterExpression := by
  have hterm := chain_complete .term foldsFor_term (fun _ _ _ _ => trivial) (signed_complete hp)
  have hstops : ∀ token op rest, operatorAt Operator.add.precedence token = some op →
      True ∧ StopsAt Operator.multiply.precedence (token :: rest) := by
    intro token op rest h
    refine ⟨trivial, ?_⟩
    rintro x hx
    cases hx
    obtain ⟨rfl | ⟨rfl, rfl⟩, hadd⟩ := operatorAt_eq_some h
    · cases op with
      | add => rfl
      | subtract => rfl
      | multiply => cases hadd
      | divide => cases hadd
    · rfl
  intro w t h tokens rest position depth hr hs
  exact chain_complete .expression foldsFor_expression hstops hterm w t h tokens rest position
    depth hr ⟨⟨trivial, hs.1⟩, hs.2⟩

/-- Inside a group whose opening parenthesis is taken, the inner expression is read up to the
closing parenthesis and that is taken too. -/
theorem group_answers {groups : Nat} {inner : Reader}
    (hi : inner.Complete .expression groups AfterExpression)
    {w : List Terminal} {t : Expression} (h : Derives .expression w t) {tokens : List Token}
    (hr : Reads tokens w) (rest : List Token) (position depth : Nat) :
    Reading.Answers (groups + 1) (.openParen :: (w ++ [.closeParen])) t
      ⟨rest, position + w.length + 1, depth⟩
      (group inner ⟨tokens ++ .closeParen :: rest, position, depth⟩).val := by
  rw [group_val]
  rcases hi w t h tokens (.closeParen :: rest) position (depth + 1) hr
    (afterExpression_closeParen rest) with ⟨b, hb, htree⟩ | ⟨limit, hlimit, hexceeds⟩
  · exact Or.inl ⟨b, by rw [hb]; rfl, htree⟩
  · refine Or.inr ⟨limit, ?_, hexceeds.mono (nestsWithin_group h.balanced).mp (Nat.le_refl _)⟩
    split
    · rename_i hin
      rw [hin] at hlimit
      exact hlimit
    · rename_i hin
      rw [hin] at hlimit
      cases hlimit

theorem atom_complete {groups : Nat} {inside : Reader}
    (hi : ∀ w t, Derives .expression w t → ∀ tokens rest position depth, Reads tokens w →
      Reading.Answers groups (.openParen :: (w ++ [.closeParen])) t
        ⟨rest, position + w.length + 1, depth⟩
        (inside ⟨tokens ++ .closeParen :: rest, position, depth⟩).val) :
    (atom inside).Complete .primary groups fun _ => True := by
  intro w t h tokens rest position depth hr _
  rcases h.primary_cases with ⟨value, rfl, rfl⟩ | ⟨v, rfl, hd⟩
  · obtain ⟨token, after, rfl, hx, hnil⟩ := hr.cons_inv
    obtain rfl := List.forall₂_nil_right_iff.mp hnil
    obtain ⟨text, rfl, hread⟩ := Token.of_terminal hx
    refine Or.inl ⟨Branch.number value, ?_, rfl⟩
    rw [List.cons_append, atom_of_literal rfl, hread, Cursor.advance_of_cons rfl]
    rfl
  · obtain ⟨token, after, rfl, hx, hafter⟩ := hr.cons_inv
    cases Token.of_terminal hx
    obtain ⟨vs, closing, rfl, hvs, hclosing⟩ := Reads.append_inv hafter
    obtain ⟨close, after, rfl, hc, hnil⟩ := Reads.cons_inv hclosing
    cases Token.of_terminal hc
    obtain rfl := List.forall₂_nil_right_iff.mp hnil
    rw [List.cons_append, atom_of_openParen rfl, Cursor.advance_of_cons rfl, List.append_assoc]
    have hlength : position + (Terminal.openParen :: (v ++ [.closeParen])).length =
        position + 1 + v.length + 1 := by
      simp only [List.length_cons, List.length_append, List.length_nil]
      omega
    rw [hlength]
    exact hi v t hd vs rest (position + 1) depth hvs

theorem primary_complete (groups : Nat) :
    (primary groups).Complete .primary groups fun _ => True := by
  induction groups with
  | zero =>
    refine atom_complete fun w t _ tokens rest position depth _ => ?_
    exact Or.inr ⟨maxGroups, rfl, Or.inl ⟨rfl, not_nestsWithin_zero_opening⟩⟩
  | succ groups ih =>
    exact atom_complete fun w t h tokens rest position depth hr =>
      group_answers (expression_complete ih) h hr rest position depth

end Reader

end PocketCalculator
