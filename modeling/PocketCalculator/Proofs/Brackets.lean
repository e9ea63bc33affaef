import Mathlib.Data.List.Forall2
import Mathlib.Data.List.Infix

/-!
# Brackets

Balance and nesting of an opening and a closing item in a list, by counting both in every
prefix. Text, tokens and the terminals of the grammar all have such a pair.
-/
namespace PocketCalculator

/-- A prefix of two joined lists ends in the first, or goes on into the second. -/
theorem prefix_of_joined {α : Type} {u w p : List α} (hp : p <+: u ++ w) :
    p <+: u ∨ ∃ q, p = u ++ q ∧ q <+: w := by
  obtain ⟨after, h⟩ := hp
  rcases List.append_eq_append_iff.mp h with ⟨q, rfl, _⟩ | ⟨q, rfl, rfl⟩
  · exact Or.inl (List.prefix_append p q)
  · exact Or.inr ⟨q, rfl, List.prefix_append q after⟩

/-- A cut of a longer list is its end or a cut of the list before. -/
theorem split_append_singleton {α : Type} {w u v : List α} {c d : α}
    (h : w ++ [c] = u ++ d :: v) :
    (v = [] ∧ w = u ∧ c = d) ∨ ∃ v', v = v' ++ [c] ∧ w = u ++ d :: v' := by
  rcases List.eq_nil_or_concat v with rfl | ⟨v', y, rfl⟩
  · obtain ⟨rfl, hc⟩ := List.append_inj' h rfl
    exact Or.inl ⟨rfl, rfl, (List.cons.inj hc).1⟩
  · have h' : w ++ [c] = (u ++ d :: v') ++ [y] := by simpa using h
    obtain ⟨rfl, hc⟩ := List.append_inj' h' rfl
    cases hc
    exact Or.inr ⟨v', by simp, rfl⟩

/-- A pair of different items, of which one opens a group and the other closes it. -/
structure Brackets (α : Type) where
  opening : α
  closing : α
  opening_ne_closing : opening ≠ closing

namespace Brackets

variable {α : Type} [DecidableEq α] (b : Brackets α)

def opens (w : List α) : Nat := w.count b.opening

def closes (w : List α) : Nat := w.count b.closing

/-- With `opened` groups open beforehand, no group is closed that is not open, and none is
open at the end. -/
def ClosesAll (opened : Nat) (w : List α) : Prop :=
  (∀ p, p <+: w → b.closes p ≤ opened + b.opens p) ∧ b.closes w = opened + b.opens w

def Balanced (w : List α) : Prop := b.ClosesAll 0 w

/-- No group is closed that is not open. -/
def NoneUnmatched (w : List α) : Prop := ∀ p, p <+: w → b.closes p ≤ b.opens p

/-- At most `limit` groups are ever open at once. -/
def NestsWithin (limit : Nat) (w : List α) : Prop :=
  ∀ p, p <+: w → b.opens p ≤ b.closes p + limit

section Counts

variable (u w : List α)

@[simp] theorem opens_nil : b.opens [] = 0 := rfl
@[simp] theorem closes_nil : b.closes [] = 0 := rfl

@[simp] theorem opens_append : b.opens (u ++ w) = b.opens u + b.opens w :=
  List.count_append

@[simp] theorem closes_append : b.closes (u ++ w) = b.closes u + b.closes w :=
  List.count_append

@[simp] theorem opens_opening : b.opens (b.opening :: w) = b.opens w + 1 :=
  List.count_cons_self

@[simp] theorem closes_closing : b.closes (b.closing :: w) = b.closes w + 1 :=
  List.count_cons_self

@[simp] theorem opens_closing : b.opens (b.closing :: w) = b.opens w :=
  List.count_cons_of_ne b.opening_ne_closing.symm

@[simp] theorem closes_opening : b.closes (b.opening :: w) = b.closes w :=
  List.count_cons_of_ne b.opening_ne_closing

variable {b w} {x : α}

theorem opens_cons_other (hx : x ≠ b.opening) : b.opens (x :: w) = b.opens w :=
  List.count_cons_of_ne hx

theorem closes_cons_other (hx : x ≠ b.closing) : b.closes (x :: w) = b.closes w :=
  List.count_cons_of_ne hx

theorem opens_eq_zero (h : b.opening ∉ w) : b.opens w = 0 := List.count_eq_zero_of_not_mem h

theorem closes_eq_zero (h : b.closing ∉ w) : b.closes w = 0 := List.count_eq_zero_of_not_mem h

@[simp] theorem opens_replicate_closing {n : ℕ} :
    b.opens (List.replicate n b.closing) = 0 := by
  simp [opens, List.count_replicate, b.opening_ne_closing.symm]

@[simp] theorem closes_replicate_closing {n : ℕ} :
    b.closes (List.replicate n b.closing) = n := by
  simp [closes]

end Counts

/-! ## Balance -/

section Balance

variable {b} {opened : Nat} {u w : List α} {x : α}

theorem closesAll_nil : b.ClosesAll opened [] ↔ opened = 0 := by
  constructor
  · intro h
    have hh := h.2
    simp at hh
    exact hh.symm
  · rintro rfl
    exact ⟨fun p hp => by simp [List.prefix_nil.mp hp], rfl⟩

/-- What follows an item is judged with the groups open after it. -/
theorem closesAll_cons (opened' : Nat)
    (hstep : ∀ p : List α, b.closes (x :: p) + opened' + b.opens p =
      opened + b.opens (x :: p) + b.closes p) :
    b.ClosesAll opened (x :: w) ↔ b.ClosesAll opened' w := by
  constructor
  · rintro ⟨hp, he⟩
    refine ⟨fun p hpw => ?_, ?_⟩
    · have hh := hp (x :: p) (by simpa using hpw)
      have hs := hstep p
      omega
    · have hs := hstep w
      omega
  · rintro ⟨hp, he⟩
    refine ⟨fun p hpw => ?_, ?_⟩
    · rcases List.prefix_cons_iff.mp hpw with rfl | ⟨q, rfl, hq⟩
      · simp
      · have hh := hp q hq
        have hs := hstep q
        omega
    · have hs := hstep w
      omega

@[simp] theorem closesAll_opening :
    b.ClosesAll opened (b.opening :: w) ↔ b.ClosesAll (opened + 1) w :=
  closesAll_cons _ fun p => by simp; omega

@[simp] theorem closesAll_closing :
    b.ClosesAll (opened + 1) (b.closing :: w) ↔ b.ClosesAll opened w :=
  closesAll_cons _ fun p => by simp; omega

theorem not_closesAll_zero_closing : ¬b.ClosesAll 0 (b.closing :: w) := by
  intro h
  have hh := h.1 [b.closing] (by simp)
  simp at hh

theorem closesAll_other (ho : x ≠ b.opening) (hc : x ≠ b.closing) :
    b.ClosesAll opened (x :: w) ↔ b.ClosesAll opened w :=
  closesAll_cons _ fun p => by rw [opens_cons_other ho, closes_cons_other hc]; omega

theorem balanced_nil : b.Balanced [] := closesAll_nil.mpr rfl

theorem Balanced.closes_le (h : b.Balanced w) {p : List α} (hp : p <+: w) :
    b.closes p ≤ b.opens p := by
  have hh := h.1 p hp
  omega

theorem Balanced.closes_eq (h : b.Balanced w) : b.closes w = b.opens w := by
  have hh := h.2
  omega

/-- A balanced part changes nothing for what follows it. -/
theorem closesAll_append (h : b.Balanced u) :
    b.ClosesAll opened (u ++ w) ↔ b.ClosesAll opened w := by
  have hu := h.closes_eq
  constructor
  · rintro ⟨hp, he⟩
    refine ⟨fun p hpw => ?_, ?_⟩
    · have hh := hp (u ++ p) (by simpa using hpw)
      simp only [opens_append, closes_append] at hh
      omega
    · simp only [opens_append, closes_append] at he
      omega
  · rintro ⟨hp, he⟩
    refine ⟨fun p hpw => ?_, ?_⟩
    · rcases prefix_of_joined hpw with hpu | ⟨q, rfl, hq⟩
      · have hh := h.closes_le hpu
        omega
      · have hh := hp q hq
        simp only [opens_append, closes_append]
        omega
    · simp only [opens_append, closes_append]
      omega

theorem Balanced.append (hu : b.Balanced u) (hw : b.Balanced w) : b.Balanced (u ++ w) :=
  (closesAll_append hu).mpr hw

theorem Balanced.group (h : b.Balanced w) :
    b.Balanced (b.opening :: (w ++ [b.closing])) := by
  rw [Balanced, closesAll_opening, closesAll_append h, closesAll_closing]
  exact balanced_nil

theorem Balanced.cons_other (ho : x ≠ b.opening) (hc : x ≠ b.closing) (h : b.Balanced w) :
    b.Balanced (x :: w) := (closesAll_other ho hc).mpr h

theorem balanced_of_not_mem (ho : b.opening ∉ w) (hc : b.closing ∉ w) : b.Balanced w := by
  refine ⟨fun p hp => ?_, by rw [opens_eq_zero ho, closes_eq_zero hc]⟩
  rw [closes_eq_zero fun hclosing => hc (hp.subset hclosing)]
  exact Nat.zero_le _

theorem not_balanced_of_opens (hc : b.closing ∉ w) (hp : b.closes u ≤ b.opens u) :
    ¬b.Balanced (u ++ b.opening :: w) := by
  intro h
  have hh := h.closes_eq
  simp only [opens_append, closes_append, opens_opening, closes_opening,
    closes_eq_zero hc] at hh
  omega

end Balance

/-! ## Imbalance -/

section Imbalance

variable {b} {w : List α}

theorem balanced_iff : b.Balanced w ↔ b.NoneUnmatched w ∧ b.closes w = b.opens w := by
  simp only [Balanced, ClosesAll, NoneUnmatched, Nat.zero_add]

theorem balanced_append_closing_iff {n : ℕ} :
    b.Balanced (w ++ List.replicate n b.closing) ↔
      b.NoneUnmatched w ∧ b.closes w + n = b.opens w := by
  rw [balanced_iff]
  simp only [opens_append, closes_append, opens_replicate_closing, closes_replicate_closing,
    Nat.add_zero]
  constructor
  · intro ⟨hnone, hcount⟩
    exact ⟨fun p hp => hnone p (hp.trans (List.prefix_append _ _)), hcount⟩
  · intro ⟨hnone, hcount⟩
    refine ⟨fun p hp => ?_, hcount⟩
    rcases prefix_of_joined hp with hpw | ⟨q, rfl, hq⟩
    · exact hnone p hpw
    · have hle : b.closes q ≤ b.closes (List.replicate n b.closing) :=
        hq.sublist.count_le b.closing
      simp only [opens_append, closes_append, closes_replicate_closing] at hle ⊢
      omega

/-- Before the first closing item that closes no group the list is balanced. -/
theorem exists_unmatched (h : ¬b.NoneUnmatched w) :
    ∃ before after, w = before ++ b.closing :: after ∧ b.Balanced before := by
  induction w using List.reverseRecOn with
  | nil =>
    have hnil : b.Balanced [] := balanced_nil
    exact absurd (fun p hp => hnil.closes_le hp) h
  | append_singleton w x ih =>
    by_cases hw : b.NoneUnmatched w
    · have hle := hw w (List.prefix_refl w)
      have hlt : b.opens (w ++ [x]) < b.closes (w ++ [x]) := by
        by_contra hnot
        refine h fun p hp => ?_
        rcases List.prefix_concat_iff.mp hp with rfl | hp
        · exact Nat.le_of_not_lt hnot
        · exact hw p hp
      rw [opens_append, closes_append] at hlt
      have hx : x = b.closing := by
        by_contra hne
        have hzero := closes_cons_other (w := []) hne
        rw [closes_nil] at hzero
        omega
      have hone : b.closes [x] ≤ 1 := List.count_le_length
      exact ⟨w, [], by rw [hx], balanced_iff.mpr ⟨hw, by omega⟩⟩
    · obtain ⟨before, after, rfl, hbefore⟩ := ih hw
      exact ⟨before, after ++ [x], by simp, hbefore⟩

end Imbalance

/-! ## Nesting -/

section Nesting

variable {b} {limit : Nat} {u w : List α} {x : α}

theorem nestsWithin_nil : b.NestsWithin limit [] := by
  intro p hp
  simp [List.prefix_nil.mp hp]

theorem nestsWithin_of_not_mem (h : b.opening ∉ w) : b.NestsWithin limit w := by
  intro p hp
  rw [opens_eq_zero fun hopening => h (hp.subset hopening)]
  exact Nat.zero_le _

theorem nestsWithin_of_length_le (h : w.length ≤ limit) : b.NestsWithin limit w := by
  intro p hp
  have hopens : b.opens p ≤ p.length := List.count_le_length
  have hlength := hp.length_le
  omega

theorem not_nestsWithin_zero_opening : ¬b.NestsWithin 0 (b.opening :: w) := by
  intro h
  have hh := h [b.opening] (by simp)
  simp at hh

theorem nestsWithin_opening :
    b.NestsWithin (limit + 1) (b.opening :: w) ↔ b.NestsWithin limit w := by
  constructor
  · intro h p hp
    have hh := h (b.opening :: p) (by simpa using hp)
    simp only [opens_opening, closes_opening] at hh
    omega
  · intro h p hp
    rcases List.prefix_cons_iff.mp hp with rfl | ⟨q, rfl, hq⟩
    · simp
    · have hh := h q hq
      simp only [opens_opening, closes_opening]
      omega

theorem nestsWithin_other (ho : x ≠ b.opening) (hc : x ≠ b.closing) :
    b.NestsWithin limit (x :: w) ↔ b.NestsWithin limit w := by
  constructor
  · intro h p hp
    have hh := h (x :: p) (by simpa using hp)
    rwa [opens_cons_other ho, closes_cons_other hc] at hh
  · intro h p hp
    rcases List.prefix_cons_iff.mp hp with rfl | ⟨q, rfl, hq⟩
    · simp
    · rw [opens_cons_other ho, closes_cons_other hc]
      exact h q hq

theorem nestsWithin_append (hu : b.Balanced u) :
    b.NestsWithin limit (u ++ w) ↔ b.NestsWithin limit u ∧ b.NestsWithin limit w := by
  have he := hu.closes_eq
  constructor
  · intro h
    refine ⟨fun p hp => h p (hp.trans (List.prefix_append u w)), fun p hp => ?_⟩
    have hh := h (u ++ p) (by simpa using hp)
    simp only [opens_append, closes_append] at hh
    omega
  · rintro ⟨h, h'⟩ p hp
    rcases prefix_of_joined hp with hpu | ⟨q, rfl, hq⟩
    · exact h p hpu
    · have hh := h' q hq
      simp only [opens_append, closes_append]
      omega

theorem nestsWithin_group (h : b.Balanced w) :
    b.NestsWithin (limit + 1) (b.opening :: (w ++ [b.closing])) ↔ b.NestsWithin limit w := by
  rw [nestsWithin_opening, nestsWithin_append h, and_iff_left_iff_imp]
  intro _ p hp
  rcases List.prefix_cons_iff.mp hp with rfl | ⟨q, rfl, hq⟩
  · simp
  · simp [List.prefix_nil.mp hq]

end Nesting

/-! ## Lists with the same brackets -/

/-- The brackets of a list without its other items, an opening one being `true`. -/
def marks (w : List α) : List Bool :=
  w.filterMap fun x =>
    if x = b.opening then some true else if x = b.closing then some false else none

section Marks

variable {β : Type} [DecidableEq β] {b : Brackets α} {b' : Brackets β} {opened limit : Nat}

theorem marks_append (u w : List α) : b.marks (u ++ w) = b.marks u ++ b.marks w :=
  List.filterMap_append

theorem marks_opening : b.marks [b.opening] = [true] := by simp [marks]

theorem marks_closing : b.marks [b.closing] = [false] := by
  simp [marks, b.opening_ne_closing.symm]

theorem marks_other {x : α} (ho : x ≠ b.opening) (hc : x ≠ b.closing) : b.marks [x] = [] := by
  simp [marks, ho, hc]

theorem count_marks (w : List α) :
    (b.marks w).count true = b.opens w ∧ (b.marks w).count false = b.closes w := by
  induction w with
  | nil => exact ⟨rfl, rfl⟩
  | cons x w ih =>
    rw [← List.singleton_append, marks_append, List.count_append, List.count_append, ih.1, ih.2,
      opens_append, closes_append]
    by_cases ho : x = b.opening
    · subst ho
      rw [marks_opening, opens_opening, closes_opening]
      exact ⟨rfl, rfl⟩
    · by_cases hc : x = b.closing
      · subst hc
        rw [marks_closing, opens_closing, closes_closing]
        exact ⟨rfl, rfl⟩
      · rw [marks_other ho hc, opens_cons_other ho, closes_cons_other hc]
        exact ⟨rfl, rfl⟩

/-- What holds of the counts in every prefix is seen on the brackets alone. -/
theorem prefix_iff_marks (w : List α) (P : Nat → Nat → Prop) :
    (∀ p, p <+: w → P (b.opens p) (b.closes p)) ↔
      ∀ m, m <+: b.marks w → P (m.count true) (m.count false) := by
  constructor
  · intro h m hm
    obtain ⟨p, hp, rfl⟩ := List.prefix_filterMap_iff.mp hm
    have hcount := count_marks (b := b) p
    rw [marks] at hcount
    rw [hcount.1, hcount.2]
    exact h p hp
  · intro h p hp
    rw [← (count_marks p).1, ← (count_marks p).2]
    exact h _ (hp.filterMap _)

variable {u : List α} {w : List β}

theorem opens_eq_of_marks (h : b.marks u = b'.marks w) : b.opens u = b'.opens w := by
  rw [← (count_marks u).1, ← (count_marks w).1, h]

theorem closes_eq_of_marks (h : b.marks u = b'.marks w) : b.closes u = b'.closes w := by
  rw [← (count_marks u).2, ← (count_marks w).2, h]

theorem noneUnmatched_iff_of_marks (h : b.marks u = b'.marks w) :
    b.NoneUnmatched u ↔ b'.NoneUnmatched w := by
  rw [NoneUnmatched, NoneUnmatched, prefix_iff_marks u fun o c => c ≤ o,
    prefix_iff_marks w fun o c => c ≤ o, h]

theorem closesAll_iff_of_marks (h : b.marks u = b'.marks w) :
    b.ClosesAll opened u ↔ b'.ClosesAll opened w := by
  rw [ClosesAll, ClosesAll, prefix_iff_marks u fun o c => c ≤ opened + o,
    prefix_iff_marks w fun o c => c ≤ opened + o, ← (count_marks u).1, ← (count_marks u).2,
    ← (count_marks w).1, ← (count_marks w).2, h]

theorem nestsWithin_iff_of_marks (h : b.marks u = b'.marks w) :
    b.NestsWithin limit u ↔ b'.NestsWithin limit w := by
  rw [NestsWithin, NestsWithin, prefix_iff_marks u fun o c => o ≤ c + limit,
    prefix_iff_marks w fun o c => o ≤ c + limit, h]

/-- Related items are both opening, both closing or neither. -/
def Matching (b : Brackets α) (b' : Brackets β) (R : α → β → Prop) : Prop :=
  ∀ x y, R x y → (x = b.opening ↔ y = b'.opening) ∧ (x = b.closing ↔ y = b'.closing)

theorem Matching.marks_eq {R : α → β → Prop} (hR : Matching b b' R) (h : List.Forall₂ R u w) :
    b.marks u = b'.marks w := by
  induction h with
  | nil => rfl
  | @cons x y u w hxy _ ih =>
    obtain ⟨ho, hc⟩ := hR x y hxy
    simp only [marks, List.filterMap_cons] at ih ⊢
    simp only [ih, ho, hc]

end Marks

end Brackets

end PocketCalculator
