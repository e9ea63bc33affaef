import PocketCalculator.Proofs.Reading.Exact
import PocketCalculator.Proofs.Rewriting.Flat

/-!
# Innermost groups

Any group without parentheses in it is a subtree of its own, so replacing it by its value
keeps the value of the whole. Whichever groups are chosen, rewriting ends, and with the value
of the tree if that has one.
-/
namespace PocketCalculator.Rewriting

open Brackets

/-- The part of a text from one opening parenthesis to its closing one lies on one side of
a terminal that is no parenthesis, if the left side is balanced. -/
theorem split_group {u w before body after : List Terminal} {x : Terminal}
    (hu : Terminal.brackets.Balanced u) (hbefore : Terminal.brackets.closes before ≤
      Terminal.brackets.opens before) (hbody : IsFlat body)
    (hx : x ≠ .openParen ∧ x ≠ .closeParen)
    (h : u ++ x :: w = before ++ .openParen :: (body ++ .closeParen :: after)) :
    (∃ after', u = before ++ .openParen :: (body ++ .closeParen :: after') ∧
      after = after' ++ x :: w) ∨
    ∃ before', w = before' ++ .openParen :: (body ++ .closeParen :: after) ∧
      before = u ++ x :: before' := by
  rcases List.append_eq_append_iff.mp h with ⟨rest, hu', hw⟩ | ⟨rest, hu', hw⟩
  · cases rest with
    | nil => exact absurd (List.cons.inj hw).1 hx.1
    | cons y before' =>
      obtain ⟨rfl, hw'⟩ := List.cons.inj hw
      exact Or.inr ⟨before', hw', hu'⟩
  · cases rest with
    | nil => exact absurd (List.cons.inj hw).1.symm hx.1
    | cons y rest =>
      obtain ⟨rfl, hw'⟩ := List.cons.inj hw
      rcases List.append_eq_append_iff.mp hw' with ⟨inner, hrest, hclose⟩ | ⟨inner, hbody', hclose⟩
      · cases inner with
        | nil => exact absurd (List.cons.inj hclose).1.symm hx.2
        | cons z after' =>
          obtain ⟨rfl, hafter⟩ := List.cons.inj hclose
          exact Or.inl ⟨after', by rw [hu', hrest], hafter⟩
      · -- The left side would end inside the group.
        have hflat : Terminal.brackets.closing ∉ rest := by
          rw [hbody'] at hbody
          exact hbody.left.2
        rw [hu'] at hu
        exact absurd hu (not_balanced_of_opens hflat hbefore)

section Enclosed

variable {w before body after : List Terminal}

theorem eq_of_enclosed (hw : Terminal.brackets.Balanced w) (hbody : IsFlat body)
    (h : w ++ [.closeParen] = body ++ .closeParen :: after) : w = body ∧ after = [] := by
  rcases List.append_eq_append_iff.mp h with ⟨rest, hbody', hafter⟩ | ⟨rest, hw', hafter⟩
  · have hlength := congrArg List.length hafter
    simp only [List.length_append, List.length_cons, List.length_nil] at hlength
    obtain rfl := List.eq_nil_of_length_eq_zero (l := rest) (by omega)
    obtain rfl := List.eq_nil_of_length_eq_zero (l := after) (by omega)
    exact ⟨by simpa using hbody'.symm, rfl⟩
  · cases rest with
    | nil => exact ⟨by simpa using hw', (List.cons.inj hafter).2⟩
    | cons y rest =>
      -- The group would be closed before it ends.
      obtain ⟨rfl, _⟩ := List.cons.inj hafter
      have hle := hw.closes_le (p := body ++ [.closeParen]) (by simp [hw'])
      have ho := opens_eq_zero (b := Terminal.brackets) hbody.1
      have hc := closes_closing Terminal.brackets []
      have ho' := opens_closing Terminal.brackets []
      rw [opens_append, closes_append, ho] at hle
      simp only [Terminal.brackets] at hle hc ho'
      simp [hc, ho'] at hle

theorem exists_inner_of_enclosed (hw : Terminal.brackets.Balanced w) (hbody : IsFlat body)
    (h : w ++ [.closeParen] = before ++ .openParen :: (body ++ .closeParen :: after)) :
    ∃ after', after = after' ++ [.closeParen] ∧
      w = before ++ .openParen :: (body ++ .closeParen :: after') := by
  rcases List.eq_nil_or_concat after with rfl | ⟨after', z, rfl⟩
  · -- The last parenthesis would close the inner group instead of the outer one.
    have hw' : w = before ++ .openParen :: body := by
      have hclosed : w ++ [.closeParen] = (before ++ .openParen :: body) ++ [.closeParen] := by
        simpa using h
      exact List.append_cancel_right hclosed
    have hle := hw.closes_le (p := before) (by simp [hw'])
    rw [hw'] at hw
    exact absurd hw (not_balanced_of_opens hbody.2 hle)
  · have h' : w ++ [.closeParen] =
        (before ++ .openParen :: (body ++ .closeParen :: after')) ++ [z] := by
      simpa using h
    obtain ⟨hw', hz⟩ := List.append_inj' h' rfl
    cases hz
    exact ⟨after', by simp, hw'⟩

/-- The same part of a group is the whole group or lies inside it. -/
theorem split_enclosed (hw : Terminal.brackets.Balanced w) (hbody : IsFlat body)
    (h : .openParen :: (w ++ [.closeParen]) =
      before ++ .openParen :: (body ++ .closeParen :: after)) :
    (before = [] ∧ w = body ∧ after = []) ∨
    ∃ before' after', before = .openParen :: before' ∧ after = after' ++ [.closeParen] ∧
      w = before' ++ .openParen :: (body ++ .closeParen :: after') := by
  cases before with
  | nil => exact Or.inl ⟨rfl, eq_of_enclosed hw hbody (List.cons.inj h).2⟩
  | cons y before =>
    obtain ⟨rfl, hinner⟩ := List.cons.inj h
    obtain ⟨after', hafter, hw'⟩ := exists_inner_of_enclosed hw hbody hinner
    exact Or.inr ⟨before, after', rfl, hafter, hw'⟩

end Enclosed

theorem split_negations {n : Nat} {w before after : List Terminal}
    (h : List.replicate n .negation ++ w = before ++ .openParen :: after) :
    ∃ before', before = List.replicate n .negation ++ before' ∧
      w = before' ++ .openParen :: after := by
  rcases List.append_eq_append_iff.mp h with ⟨rest, hb, hw⟩ | ⟨rest, hb, hw⟩
  · exact ⟨rest, hb, hw⟩
  · cases rest with
    | nil => exact ⟨[], by simpa using hb.symm, by simpa using hw.symm⟩
    | cons y rest =>
      obtain ⟨rfl, _⟩ := List.cons.inj hw
      have hmem : Terminal.openParen ∈ List.replicate n Terminal.negation := by simp [hb]
      simp at hmem

/-- A group without parentheses in it is a subtree, and a value in its place leaves a phrase. -/
theorem exists_context_of_group {category : Category} {w : List Terminal} {t : Expression}
    (h : Derives category w t) {before body after : List Terminal}
    (hw : w = before ++ .openParen :: (body ++ .closeParen :: after)) (hbody : IsFlat body) :
    ∃ (c : Context) (u : Expression), Derives .expression body u ∧ t = c.fill u ∧
      ∀ v, Derives category (before ++ .number v :: after) (c.fill (.number v)) := by
  -- The group is followed down into the side that it lies on, until it is the phrase itself.
  induction h generalizing before after with
  | number v => simp [List.cons_eq_append_iff] at hw
  | @group inner t h ih =>
    rcases split_enclosed h.balanced hbody hw with
      ⟨rfl, rfl, rfl⟩ | ⟨before', after', rfl, rfl, rfl⟩
    · exact ⟨.hole, t, h, rfl, fun v => .number v⟩
    · obtain ⟨c, u, hu, rfl, hc⟩ := ih rfl
      refine ⟨c, u, hu, rfl, fun v => ?_⟩
      have hd := Derives.group (hc v)
      rwa [List.append_assoc, List.cons_append] at hd
  | @signed n w t h ih =>
    obtain ⟨before', rfl, rfl⟩ := split_negations hw
    obtain ⟨c, u, hu, rfl, hc⟩ := ih rfl
    have hd : ∀ v, Derives .unary (List.replicate n .negation ++ before' ++ .number v :: after)
        ((c.fill (.number v)).negateTimes n) := by
      intro v
      rw [List.append_assoc]
      exact .signed n (hc v)
    by_cases hn : n % 2 = 0
    · simp only [Expression.negateTimes, if_pos hn] at hd ⊢
      exact ⟨c, u, hu, rfl, hd⟩
    · simp only [Expression.negateTimes, if_neg hn] at hd ⊢
      exact ⟨.negate c, u, hu, rfl, hd⟩
  | unary _ ih =>
    obtain ⟨c, u, hu, rfl, hc⟩ := ih hw
    exact ⟨c, u, hu, rfl, fun v => .unary (hc v)⟩
  | term _ ih =>
    obtain ⟨c, u, hu, rfl, hc⟩ := ih hw
    exact ⟨c, u, hu, rfl, fun v => .term (hc v)⟩
  | @join outer inner x o u w l r hl hj hr ihl ihr =>
    have hb : Terminal.brackets.closes before ≤ Terminal.brackets.opens before :=
      (hl.join hj hr).balanced.closes_le (by rw [hw]; exact List.prefix_append ..)
    rcases split_group hl.balanced hb hbody hj.ne_parens hw with
      ⟨after', rfl, rfl⟩ | ⟨before', rfl, rfl⟩
    · obtain ⟨c, e, he, rfl, hc⟩ := ihl rfl
      exact ⟨.left o c r, e, he, rfl, fun v => Derives.join_cut_left (hc v) hj hr⟩
    · obtain ⟨c, e, he, rfl, hc⟩ := ihr rfl
      exact ⟨.right o l c, e, he, rfl, fun v => Derives.join_cut_right hl hj (hc v)⟩

theorem isFlat_or_exists_group {category : Category} {w : List Terminal} {t : Expression}
    (h : Derives category w t) :
    IsFlat w ∨ ∃ before body after,
      w = before ++ .openParen :: (body ++ .closeParen :: after) ∧ IsFlat body := by
  induction h with
  | number v => exact Or.inl ⟨by simp, by simp⟩
  | @group w t _ ih =>
    rcases ih with hw | ⟨before, body, after, rfl, hbody⟩
    · exact Or.inr ⟨[], w, [], rfl, hw⟩
    · exact Or.inr ⟨.openParen :: before, body, after ++ [.closeParen], by simp, hbody⟩
  | @signed n w t _ ih =>
    rcases ih with hw | ⟨before, body, after, rfl, hbody⟩
    · exact Or.inl ⟨by simpa using hw.1, by simpa using hw.2⟩
    · exact Or.inr ⟨List.replicate n .negation ++ before, body, after, by simp, hbody⟩
  | unary _ ih => exact ih
  | term _ ih => exact ih
  | @join outer inner x op u w l r _ hj _ ihl ihr =>
    rcases ihl with hu | ⟨before, body, after, rfl, hbody⟩
    · rcases ihr with hw | ⟨before, body, after, rfl, hbody⟩
      · refine Or.inl ⟨?_, ?_⟩
        · simpa [hu.1, hw.1] using hj.ne_parens.1.symm
        · simpa [hu.2, hw.2] using hj.ne_parens.2.symm
      · exact Or.inr ⟨u ++ x :: before, body, after, by simp, hbody⟩
    · exact Or.inr ⟨before, body, after ++ x :: w, by simp, hbody⟩

/-! ## Runs -/

/-- What rewriting keeps: the text is a phrase with the given value, and an outcome is that
value or a failure for want of one. -/
def State.Keeps (s : Settings) (value : Option Binary64) : State → Prop
  | text w => ∃ t, Derives .expression w t ∧ s.value? t = value
  | halted outcome => outcome.toOption = value

theorem Step.keeps {s : Settings} {value : Option Binary64} {a b : State} (h : Step s a b)
    (ha : a.Keeps s value) : b.Keeps s value := by
  cases h with
  | @group before body after v hbody hv =>
    obtain ⟨t, hd, rfl⟩ := ha
    obtain ⟨c, u, hu, rfl, hc⟩ := exists_context_of_group hd rfl hbody
    refine ⟨c.fill (.number v), hc v, s.value?_fill_congr c ?_⟩
    rw [← reduceFlat_value s hu hbody, hv]
    rfl
  | @failure before body after fault hbody hfault =>
    obtain ⟨t, hd, rfl⟩ := ha
    obtain ⟨c, u, hu, rfl, _⟩ := exists_context_of_group hd rfl hbody
    refine (s.value?_fill_none c ?_).symm
    rw [← reduceFlat_value s hu hbody, hfault]
    rfl
  | finish hw =>
    obtain ⟨t, hd, rfl⟩ := ha
    exact reduceFlat_value s hd hw

theorem Run.keeps {s : Settings} {value : Option Binary64} {a b : State} (h : Run s a b)
    (ha : a.Keeps s value) : b.Keeps s value := by
  induction h with
  | refl => exact ha
  | tail _ hstep ih => exact hstep.keeps ih

theorem exists_step {s : Settings} {value : Option Binary64} {w : List Terminal}
    (h : (State.text w).Keeps s value) : ∃ next, Step s (.text w) next := by
  obtain ⟨t, hd, _⟩ := h
  rcases isFlat_or_exists_group hd with hw | ⟨before, body, after, rfl, hbody⟩
  · exact ⟨_, .finish hw⟩
  · cases hr : reduceFlat s body with
    | ok v => exact ⟨_, .group hbody hr⟩
    | error fault => exact ⟨_, .failure hbody hr⟩

theorem exists_outcome {s : Settings} {value : Option Binary64} (a : State)
    (h : a.Keeps s value) : ∃ outcome, Run s a (.halted outcome) := by
  induction a using (step_wellFounded s).induction with
  | _ a ih =>
    cases a with
    | halted outcome => exact ⟨outcome, .refl⟩
    | text w =>
      obtain ⟨next, hstep⟩ := exists_step h
      obtain ⟨outcome, hrun⟩ := ih next hstep (hstep.keeps h)
      exact ⟨outcome, .head hstep hrun⟩

/-- Whatever groups are chosen, rewriting gets to an outcome, which is the given result or a
failure like it, if perhaps for another reason. -/
def EndsAs (s : Settings) (w : List Terminal) (result : Except Fault Binary64) : Prop :=
  ∀ state, Run s (.text w) state →
    (∃ outcome, Run s state (.halted outcome)) ∧
    ∀ outcome, state = .halted outcome →
      (∀ v, result = .ok v ↔ outcome = .ok v) ∧
      ((∃ fault, result = .error fault) ↔ ∃ fault, outcome = .error fault)

/-- The tree of a typed expression has a value exactly when rewriting the expression ends in
that value, and none exactly when rewriting fails, and every run of rewriting ends. -/
theorem reduce_refines_rewriting (s : Settings) (text : List Char) (tree : Expression)
    (h : Expression.parse text = .ok tree) :
    WellFounded (fun after before => Step s before after) ∧
      ∃ terminals, Reads (Token.scan text) terminals ∧ EndsAs s terminals (s.reduce tree) := by
  obtain ⟨⟨terminals, hreads, hd⟩, _⟩ := Expression.denotes_of_ofTokens h
  refine ⟨step_wellFounded s, terminals, hreads, fun state hrun => ?_⟩
  have hkeeps : state.Keeps s (s.value? tree) := hrun.keeps ⟨tree, hd, rfl⟩
  refine ⟨exists_outcome state hkeeps, ?_⟩
  rintro outcome rfl
  simp only [State.Keeps, Settings.value?] at hkeeps
  cases outcome <;> cases hr : s.reduce tree <;> simp_all [Except.toOption]

def natural (n : Nat) : Expression := .number (Decimal.toBinary64 false ⟨n, 0⟩)

theorem reduce_refines_rewriting_two_groups :
    ∃ tree, Expression.parse "(8)-3X(1-4)".toList = .ok tree ∧
      ∃ terminals, Reads (Token.scan "(8)-3X(1-4)".toList) terminals ∧
        EndsAs .default terminals (Settings.default.reduce tree) :=
  have h : Expression.parse "(8)-3X(1-4)".toList =
      .ok (.binary .subtract (natural 8)
        (.binary .multiply (natural 3) (.binary .subtract (natural 1) (natural 4)))) := by
    decide +kernel
  ⟨_, h, (reduce_refines_rewriting .default _ _ h).2⟩

end PocketCalculator.Rewriting
