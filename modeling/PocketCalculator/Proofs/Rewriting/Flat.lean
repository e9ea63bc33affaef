import PocketCalculator.Proofs.Rewriting.Basic
import PocketCalculator.Proofs.Rewriting.Context

/-!
# Flat bodies

Reducing a flat body gives the value of the tree that the grammar gives it. The leftmost of
the tightest operators always stands between two numbers that are its operands in the tree,
so applying it replaces a subtree by its value.
-/
namespace PocketCalculator.Rewriting

/-- Numbers and operators only. -/
def IsPlain (w : List Terminal) : Prop :=
  ∀ x ∈ w, (∃ v, x = .number v) ∨ ∃ op, x = .operator op

theorem IsPlain.left {u w : List Terminal} (h : IsPlain (u ++ w)) : IsPlain u :=
  fun x hx => h x (List.mem_append_left w hx)

theorem IsPlain.right {u w : List Terminal} (h : IsPlain (u ++ w)) : IsPlain w :=
  fun x hx => h x (List.mem_append_right u hx)

theorem IsPlain.tail {x : Terminal} {w : List Terminal} (h : IsPlain (x :: w)) : IsPlain w :=
  fun y hy => h y (List.mem_cons_of_mem x hy)

theorem IsFlat.left {u w : List Terminal} (h : IsFlat (u ++ w)) : IsFlat u :=
  ⟨fun hx => h.1 (List.mem_append_left w hx), fun hx => h.2 (List.mem_append_left w hx)⟩

theorem IsFlat.right {u w : List Terminal} (h : IsFlat (u ++ w)) : IsFlat w :=
  ⟨fun hx => h.1 (List.mem_append_right u hx), fun hx => h.2 (List.mem_append_right u hx)⟩

/-! ## Negations -/

theorem applySigns_replicate (n : Nat) (odd : Bool) (w : List Terminal) :
    applySigns false odd (List.replicate n .negation ++ w) =
      applySigns false (odd ^^ (n % 2 == 1)) w := by
  induction n generalizing odd with
  | zero => simp
  | succ n ih =>
    rw [List.replicate_succ, List.cons_append, applySigns]
    simp only [Bool.false_eq_true, ↓reduceIte, ih]
    congr 1
    rcases Nat.mod_two_eq_zero_or_one n with h | h <;> cases odd <;> simp [Nat.add_mod, h]

theorem applySigns_join {outer inner : Category} {x : Terminal} {op : Operator}
    (h : Joins outer x op inner) (w : List Terminal) :
    applySigns true false (x :: w) = .operator op :: applySigns false false w := by
  cases h <;> rfl

/-- Applying the negations of a flat phrase leaves a plain one with the same value. -/
theorem exists_plain_of_flat {category : Category} {w : List Terminal} {t : Expression}
    (h : Derives category w t) (hw : IsFlat w) :
    ∃ w' t', Derives category w' t' ∧ IsPlain w' ∧ (∀ s : Settings, s.value? t' = s.value? t) ∧
      ∀ rest, applySigns false false (w ++ rest) = w' ++ applySigns true false rest := by
  induction h with
  | number v =>
    refine ⟨_, _, .number v, fun x hx => Or.inl ⟨v, List.mem_singleton.mp hx⟩, fun _ => rfl, ?_⟩
    intro rest
    rfl
  | group _ _ => exact absurd (List.mem_cons_self ..) hw.1
  | @signed n w t h _ =>
    -- In a flat phrase a sign stands before a number, which it is applied to.
    rcases h.primary_cases with ⟨v, rfl, rfl⟩ | ⟨inner, rfl, _⟩
    · let v' := if n % 2 = 1 then v.neg else v
      refine ⟨[.number v'], .number v', ?_, ?_, ?_, ?_⟩
      · exact .signed 0 (.number v')
      · exact fun x hx => Or.inl ⟨v', List.mem_singleton.mp hx⟩
      · intro s
        rcases Nat.mod_two_eq_zero_or_one n with hn | hn
        · simp [v', Expression.negateTimes, hn]
        · simp [v', Expression.negateTimes, hn, Settings.value?_negate, Settings.value?_number]
      · intro rest
        rw [List.append_assoc, applySigns_replicate]
        simp [applySigns, v']
    · exact absurd (by simp) hw.1
  | unary _ ih =>
    obtain ⟨w', t', hd, hp, hv, ha⟩ := ih hw
    exact ⟨w', t', .unary hd, hp, hv, ha⟩
  | term _ ih =>
    obtain ⟨w', t', hd, hp, hv, ha⟩ := ih hw
    exact ⟨w', t', .term hd, hp, hv, ha⟩
  | @join outer inner x op u w l r _ hj _ ihl ihr =>
    obtain ⟨u', l', hdl, hpl, hvl, hal⟩ := ihl hw.left
    obtain ⟨w', r', hdr, hpr, hvr, har⟩ := ihr (IsFlat.right (u := [x]) hw.right)
    refine ⟨u' ++ .operator op :: w', .binary op l' r', .join hdl hj.operator hdr, ?_, ?_, ?_⟩
    · intro y hy
      simp only [List.mem_append, List.mem_cons] at hy
      rcases hy with hy | rfl | hy
      · exact hpl y hy
      · exact Or.inr ⟨op, rfl⟩
      · exact hpr y hy
    · intro s
      simp only [Settings.value?_binary, hvl, hvr]
    · intro rest
      rw [List.append_assoc, List.cons_append, hal, applySigns_join hj, har, List.append_assoc,
        List.cons_append]

/-! ## Operators -/

@[simp] theorem operators_nil : operators [] = [] := rfl

@[simp] theorem operators_append (u w : List Terminal) :
    operators (u ++ w) = operators u ++ operators w := List.filterMap_append

@[simp] theorem operators_operator (op : Operator) (w : List Terminal) :
    operators (.operator op :: w) = op :: operators w := rfl

@[simp] theorem operators_number (v : Binary64) (w : List Terminal) :
    operators (.number v :: w) = operators w := rfl

/-- A plain phrase is a number, a phrase of a tighter category, or two plain phrases joined
by an operator. -/
@[elab_as_elim]
theorem Derives.plain_induction {P : Category → List Terminal → Expression → Prop}
    (number : ∀ v, P .primary [.number v] (.number v))
    (widen : ∀ outer inner w t, outer.level ≤ inner.level →
      (∀ w t, Derives inner w t → Derives outer w t) → P inner w t → P outer w t)
    (join : ∀ outer inner op u w l r, Joins outer (.operator op) op inner →
      Derives outer u l → IsPlain u → P outer u l →
      Derives inner w r → IsPlain w → P inner w r →
      P outer (u ++ .operator op :: w) (.binary op l r))
    {category : Category} {w : List Terminal} {t : Expression} (h : Derives category w t)
    (hw : IsPlain w) : P category w t := by
  induction h with
  | number v => exact number v
  | group _ _ => simpa using hw .openParen (List.mem_cons_self ..)
  | @signed n w t _ ih =>
    cases n with
    | zero => exact widen .unary .primary w t (by decide) (fun _ _ h => .signed 0 h) (ih hw)
    | succ n => simpa using hw .negation (by simp [List.replicate_succ])
  | unary _ ih => exact widen .term .unary _ _ (by decide) (fun _ _ => .unary) (ih hw)
  | term _ ih => exact widen .expression .term _ _ (by decide) (fun _ _ => .term) (ih hw)
  | join hl hj hr ihl ihr =>
    rcases hj.eq_operator_or_negation with rfl | rfl
    · exact join _ _ _ _ _ _ _ hj hl hw.left (ihl hw.left) hr hw.right.tail (ihr hw.right.tail)
    · simpa using hw .negation (by simp)

theorem level_le_precedence {category : Category} {w : List Terminal} {t : Expression}
    (h : Derives category w t) (hw : IsPlain w) :
    ∀ op ∈ operators w, category.level ≤ op.precedence := by
  refine Derives.plain_induction ?number ?widen ?join h hw
  case number => simp
  case widen =>
    intro outer inner w t hle _ ih op hop
    exact hle.trans (ih op hop)
  case join =>
    intro outer inner op u w l r hj _ _ ihl _ _ ihr o ho
    rw [operators_append, operators_operator, List.mem_append, List.mem_cons] at ho
    rcases ho with ho | rfl | ho
    · exact ihl o ho
    · exact hj.precedence.1.ge
    · have hh := ihr o ho
      have hl := hj.precedence.2
      omega

theorem eq_number_of_operators_nil {category : Category} {w : List Terminal} {t : Expression}
    (h : Derives category w t) (hw : IsPlain w) (ho : operators w = []) :
    ∃ v, w = [.number v] ∧ t = .number v := by
  revert ho
  refine Derives.plain_induction ?number ?widen ?join h hw
  case number => exact fun v _ => ⟨v, rfl, rfl⟩
  case widen => exact fun _ _ _ _ _ _ ih => ih
  case join =>
    intro outer inner op u w l r _ _ _ _ _ _ _ ho
    simp at ho

/-- Where a joined phrase is cut into two numbers around an operator and what surrounds them,
these three lie on one side, or they are the last of the left side, the joining operator and
the first of the right side. -/
theorem split_operation {u w before after : List Terminal} {x : Terminal} {a b : Binary64}
    {op : Operator} (hx : ∀ v, x ≠ .number v)
    (h : u ++ x :: w = before ++ .number a :: .operator op :: .number b :: after) :
    (∃ after', u = before ++ .number a :: .operator op :: .number b :: after' ∧
      after = after' ++ x :: w) ∨
    (u = before ++ [.number a] ∧ x = .operator op ∧ w = .number b :: after) ∨
    ∃ before', w = before' ++ .number a :: .operator op :: .number b :: after ∧
      before = u ++ x :: before' := by
  rcases List.append_eq_append_iff.mp h with ⟨rest, hu, hw⟩ | ⟨rest, hu, hw⟩
  · cases rest with
    | nil =>
      obtain ⟨rfl, _⟩ := List.cons.inj hw
      exact absurd rfl (hx a)
    | cons y before' =>
      obtain ⟨rfl, hw'⟩ := List.cons.inj hw
      exact Or.inr (Or.inr ⟨before', hw', hu⟩)
  · match rest, hw with
    | [], hw =>
      obtain ⟨rfl, _⟩ := List.cons.inj hw
      exact absurd rfl (hx a)
    | [y], hw =>
      simp only [List.cons_append, List.nil_append, List.cons.injEq] at hw
      obtain ⟨rfl, rfl, rfl⟩ := hw
      exact Or.inr (Or.inl ⟨hu, rfl, rfl⟩)
    | [y, z], hw =>
      simp only [List.cons_append, List.nil_append, List.cons.injEq] at hw
      obtain ⟨rfl, rfl, rfl, _⟩ := hw
      exact absurd rfl (hx b)
    | y :: z :: z' :: after', hw =>
      simp only [List.cons_append, List.cons.injEq] at hw
      obtain ⟨rfl, rfl, rfl, hafter⟩ := hw
      exact Or.inl ⟨after', hu, hafter⟩

section Cut

variable {outer inner : Category} {x y : Terminal} {op : Operator} {u w before after : List Terminal}
  {l r : Expression}

theorem Derives.join_cut_left (hl : Derives outer (before ++ y :: after) l)
    (hj : Joins outer x op inner) (hr : Derives inner w r) :
    Derives outer (before ++ y :: (after ++ x :: w)) (.binary op l r) := by
  have hd := hl.join hj hr
  rwa [List.append_assoc, List.cons_append] at hd

theorem Derives.join_cut_right (hl : Derives outer u l) (hj : Joins outer x op inner)
    (hr : Derives inner (before ++ y :: after) r) :
    Derives outer (u ++ x :: before ++ y :: after) (.binary op l r) := by
  have hd := hl.join hj hr
  rwa [← List.cons_append, ← List.append_assoc] at hd

end Cut

/-- An operator of which all before it are looser and all after it no tighter has its two
neighbours as operands in the tree. -/
theorem exists_context_of_operation {category : Category} {w : List Terminal} {t : Expression}
    (h : Derives category w t) (hp : IsPlain w) {a b : Binary64} {op : Operator} :
    ∀ before after, w = before ++ .number a :: .operator op :: .number b :: after →
      (∀ o ∈ operators before, o.precedence < op.precedence) →
      (∀ o ∈ operators after, o.precedence ≤ op.precedence) →
      ∃ c : Context, t = c.fill (.binary op (.number a) (.number b)) ∧
        ∀ v, Derives category (before ++ .number v :: after) (c.fill (.number v)) := by
  refine Derives.plain_induction ?number ?widen ?join h hp
  case number =>
    intro v before after hw
    simp [List.cons_eq_append_iff] at hw
  case widen =>
    intro outer inner w t _ hwiden ih before after hw hbefore hafter
    obtain ⟨c, rfl, hc⟩ := ih before after hw hbefore hafter
    exact ⟨c, rfl, fun v => hwiden _ _ (hc v)⟩
  case join =>
    intro outer inner o u w l r hj hl hu ihl hr hpw ihr before after hw hbefore hafter
    rcases split_operation (by simp) hw with
      ⟨after', rfl, rfl⟩ | ⟨rfl, hop, rfl⟩ | ⟨before', rfl, rfl⟩
    · obtain ⟨c, rfl, hc⟩ := ihl _ _ rfl hbefore fun o' ho' => hafter o' (by simp [ho'])
      exact ⟨.left o c r, rfl, fun v => Derives.join_cut_left (hc v) hj hr⟩
    · -- The joining operator is meant, and none can be looser before it or as tight after it: both
      -- sides are numbers.
      cases hop
      have hul : operators (before ++ [.number a]) = [] := by
        rw [List.eq_nil_iff_forall_not_mem]
        intro o' ho'
        have hh := level_le_precedence hl hu o' ho'
        have hlt := hbefore o' (by simpa using ho')
        have he := hj.precedence.1
        omega
      have hwr : operators (.number b :: after) = [] := by
        rw [List.eq_nil_iff_forall_not_mem]
        intro o' ho'
        have hh := level_le_precedence hr hpw o' ho'
        have hle := hafter o' (by simpa using ho')
        have he := hj.precedence
        omega
      obtain ⟨a', ha, rfl⟩ := eq_number_of_operators_nil hl hu hul
      obtain ⟨b', hb, rfl⟩ := eq_number_of_operators_nil hr hpw hwr
      obtain ⟨rfl, ha⟩ := List.append_eq_singleton_iff.mp ha |>.resolve_right (by simp)
      cases ha
      cases hb
      exact ⟨.hole, rfl, fun v => Derives.value outer v⟩
    · obtain ⟨c, rfl, hc⟩ := ihr _ _ rfl (fun o' ho' => hbefore o' (by simp [ho'])) hafter
      exact ⟨.right o l c, rfl, fun v => Derives.join_cut_right hl hj (hc v)⟩

/-! ## Applying the tightest operator -/

/-- Numbers with single operators between them. -/
inductive Alternates : List Terminal → Prop
  | number (v : Binary64) : Alternates [.number v]
  | operation (v : Binary64) (op : Operator) {w : List Terminal} : Alternates w →
      Alternates (.number v :: .operator op :: w)

theorem Alternates.join {u w : List Terminal} (op : Operator) (hu : Alternates u)
    (hw : Alternates w) : Alternates (u ++ .operator op :: w) := by
  induction hu with
  | number v => exact .operation v op hw
  | operation v op' _ ih => exact .operation v op' ih

theorem alternates_of_derives {category : Category} {w : List Terminal} {t : Expression}
    (h : Derives category w t) (hw : IsPlain w) : Alternates w := by
  refine Derives.plain_induction ?number ?widen ?join h hw
  case number => exact .number
  case widen => exact fun _ _ _ _ _ _ ih => ih
  case join => exact fun _ _ op _ _ _ _ _ _ _ ihl _ _ ihr => ihl.join op ihr

theorem applyFirst_eq (s : Settings) {precedence : Nat} {w : List Terminal}
    (h : Alternates w) (hop : ∃ op ∈ operators w, op.precedence = precedence) :
    ∃ before a op b after, w = before ++ .number a :: .operator op :: .number b :: after ∧
      op.precedence = precedence ∧ (∀ o ∈ operators before, o.precedence ≠ precedence) ∧
      applyFirst s precedence w =
        (s.calculate op a b).map fun v => before ++ .number v :: after := by
  induction h with
  | number v => simp at hop
  | @operation v op w hw ih =>
    by_cases he : op.precedence = precedence
    · cases hw with
      | number b =>
        exact ⟨[], v, op, b, [], rfl, he, by simp, by rw [applyFirst, if_pos he]; rfl⟩
      | @operation b op' after hw =>
        exact ⟨[], v, op, b, .operator op' :: after, rfl, he, by simp,
          by rw [applyFirst, if_pos he]; rfl⟩
    · have hop' : ∃ op ∈ operators w, op.precedence = precedence := by
        obtain ⟨o, ho, hp⟩ := hop
        rw [operators_number, operators_operator, List.mem_cons] at ho
        rcases ho with rfl | ho
        · exact absurd hp he
        · exact ⟨o, ho, hp⟩
      obtain ⟨before, a, o, b, after, rfl, hp, hbefore, happly⟩ := ih hop'
      refine ⟨.number v :: .operator op :: before, a, o, b, after, rfl, hp, ?_, ?_⟩
      · intro o' ho'
        rw [operators_number, operators_operator, List.mem_cons] at ho'
        rcases ho' with rfl | ho'
        · exact he
        · exact hbefore o' ho'
      · unfold applyFirst
        rw [if_neg he, happly]
        cases s.calculate o a b <;> rfl

theorem precedence_le_tightest {w : List Terminal} {op : Operator} (h : op ∈ operators w) :
    op.precedence ≤ tightest w := by
  rw [tightest]
  generalize operators w = ops at h
  induction ops with
  | nil => cases h
  | cons o ops ih =>
    rw [List.map_cons, List.foldr_cons]
    rcases List.mem_cons.mp h with rfl | h
    · exact Nat.le_max_left ..
    · exact (ih h).trans (Nat.le_max_right ..)

theorem exists_tightest {w : List Terminal} (h : operators w ≠ []) :
    ∃ op ∈ operators w, op.precedence = tightest w := by
  rw [tightest]
  generalize operators w = ops at h
  induction ops with
  | nil => exact absurd rfl h
  | cons o ops ih =>
    rw [List.map_cons, List.foldr_cons]
    by_cases hops : ops = []
    · subst hops
      exact ⟨o, by simp, by simp⟩
    · obtain ⟨op, hop, hp⟩ := ih hops
      rcases Nat.le_total o.precedence ((ops.map Operator.precedence).foldr max 0) with hle | hle
      · exact ⟨op, List.mem_cons_of_mem o hop, by rw [Nat.max_eq_right hle, hp]⟩
      · exact ⟨o, List.mem_cons_self .., (Nat.max_eq_left hle).symm⟩

/-- The operator that is applied is tighter than all before it, and none after it is tighter. -/
theorem exists_tightest_operation (s : Settings) {w : List Terminal} (h : Alternates w)
    (hne : operators w ≠ []) :
    ∃ before a op b after, w = before ++ .number a :: .operator op :: .number b :: after ∧
      (∀ o ∈ operators before, o.precedence < op.precedence) ∧
      (∀ o ∈ operators after, o.precedence ≤ op.precedence) ∧
      applyFirst s (tightest w) w =
        (s.calculate op a b).map fun v => before ++ .number v :: after := by
  obtain ⟨before, a, op, b, after, rfl, hp, hbefore, happly⟩ :=
    applyFirst_eq s h (exists_tightest hne)
  have hmem : ∀ o, o ∈ operators before ∨ o ∈ operators after → o.precedence ≤ op.precedence := by
    intro o ho
    rw [hp]
    apply precedence_le_tightest
    simp only [operators_append, operators_number, operators_operator, List.mem_append,
      List.mem_cons]
    tauto
  refine ⟨before, a, op, b, after, rfl, fun o ho => ?_, fun o ho => hmem o (Or.inr ho), happly⟩
  exact lt_of_le_of_ne (hmem o (Or.inl ho)) fun he => hbefore o ho (he.trans hp)

section Applied

variable {before after : List Terminal} {a b : Binary64} {op : Operator}

theorem IsPlain.applied (h : IsPlain (before ++ .number a :: .operator op :: .number b :: after))
    (v : Binary64) : IsPlain (before ++ .number v :: after) := by
  intro x hx
  rcases List.mem_append.mp hx with hx | hx
  · exact h.left x hx
  · rcases List.mem_cons.mp hx with rfl | hx
    · exact Or.inl ⟨v, rfl⟩
    · exact h.right.tail.tail.tail x hx

theorem length_operators_applied (v : Binary64) :
    (operators (before ++ .number a :: .operator op :: .number b :: after)).length =
      (operators (before ++ .number v :: after)).length + 1 := by
  simp only [operators_append, operators_number, operators_operator, List.length_append,
    List.length_cons]
  omega

end Applied

/-- Each application replaces a subtree by its value or fails as it does, so a plain phrase
ends as the value of its tree. -/
theorem collapse_value (s : Settings) {category : Category} (count : Nat) {w : List Terminal}
    {t : Expression} (h : Derives category w t) (hw : IsPlain w)
    (hcount : (operators w).length = count) :
    (∃ v, s.value? t = some v ∧ collapse s count w = .ok [.number v]) ∨
      s.value? t = none ∧ ∃ fault, collapse s count w = .error fault := by
  induction count generalizing w t with
  | zero =>
    obtain ⟨v, rfl, rfl⟩ := eq_number_of_operators_nil h hw (List.eq_nil_of_length_eq_zero hcount)
    exact Or.inl ⟨v, rfl, rfl⟩
  | succ count ih =>
    have hne : operators w ≠ [] := by
      intro hnil
      simp [hnil] at hcount
    obtain ⟨before, a, op, b, after, rfl, hbefore, hafter, happly⟩ :=
      exists_tightest_operation s (alternates_of_derives h hw) hne
    obtain ⟨c, rfl, hc⟩ := exists_context_of_operation h hw _ _ rfl hbefore hafter
    rw [collapse, happly]
    have hoperation : s.value? (.binary op (.number a) (.number b)) =
        (s.calculate op a b).toOption := by
      rw [Settings.value?_binary, Settings.value?_number, Settings.value?_number]
      rfl
    cases hcalculate : s.calculate op a b with
    | error fault =>
      refine Or.inr ⟨s.value?_fill_none c ?_, fault, rfl⟩
      rw [hoperation, hcalculate]
      rfl
    | ok v =>
      have hvalue : s.value? (c.fill (.number v)) =
          s.value? (c.fill (.binary op (.number a) (.number b))) :=
        s.value?_fill_congr c (by rw [hoperation, hcalculate]; rfl)
      have hlength : (operators (before ++ .number v :: after)).length = count :=
        Nat.succ.inj ((length_operators_applied v).symm.trans hcount)
      -- What is left is a phrase of the same category with one operator less.
      rw [← hvalue]
      exact ih (hc v) (hw.applied v) hlength

/-- A flat phrase is reduced to the value of its tree, and has none if the tree has none. -/
theorem reduceFlat_value (s : Settings) {category : Category} {w : List Terminal}
    {t : Expression} (h : Derives category w t) (hw : IsFlat w) :
    (reduceFlat s w).toOption = s.value? t := by
  obtain ⟨w', t', hd, hp, hv, ha⟩ := exists_plain_of_flat h hw
  have hsigns : applySigns false false w = w' := by
    have hh := ha []
    rwa [List.append_nil, applySigns, List.append_nil] at hh
  rw [reduceFlat, hsigns, ← hv s]
  rcases collapse_value s _ hd hp rfl with ⟨v, hvalue, hc⟩ | ⟨hvalue, fault, hc⟩
  · rw [hc, hvalue]
    rfl
  · rw [hc, hvalue]
    rfl

end PocketCalculator.Rewriting
