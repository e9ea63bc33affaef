import PocketCalculator.Proofs.Decimal.Scaled
import PocketCalculator.Proofs.Reading.Literals

/-!
# Sums of decimals are exact

Where every step is rounded, the value of a sum of decimals with few places stands for the exact
decimal after each step: the error of the step is far less than half a last place, and rounding
takes it away. So however long a sum is, no error accumulates.
-/
namespace PocketCalculator

open Binary64

/-- Only additions, subtractions and negations. -/
def Formula.IsSum : Formula → Prop
  | numeral _ => True
  | negate operand => operand.IsSum
  | binary op left right => (op = .add ∨ op = .subtract) ∧ left.IsSum ∧ right.IsSum

namespace Operator

variable {a b : Binary64}

theorem apply_add (h : (a.add b).isFinite = true) : add.apply a b = .ok (a.add b) := if_pos h

theorem apply_subtract (h : (a.sub b).isFinite = true) : subtract.apply a b = .ok (a.sub b) :=
  if_pos h

end Operator

namespace Settings

variable {s : Settings} {m n : ℤ} {a b : Binary64}

theorem calculate_sum (hs : s.policy = .everyStep) (hprecision : s.precision ≤ maxPrecision)
    (ha : StandsFor s.precision m a) (hm : |m| ≤ 2 ^ 49)
    (hb : StandsFor s.precision n b) (hn : |n| ≤ 2 ^ 49) {op : Operator} {sum : ℤ}
    (hop : op = .add ∧ sum = m + n ∨ op = .subtract ∧ sum = m - n) (hsum : |sum| ≤ 2 ^ 49) :
    s.calculate op a b = .ok (ofScaled s.precision sum) := by
  have hleft := standsFor_ofScaled hprecision hm
  have hright := standsFor_ofScaled hprecision hn
  simp only [calculate, hs]
  rw [ha.roundHalfAway hprecision hm, hb.roundHalfAway hprecision hn]
  rcases hop with ⟨rfl, rfl⟩ | ⟨rfl, rfl⟩
  · obtain ⟨hfinite, hrounded⟩ := hleft.add hright hprecision hsum
    rw [Operator.apply_add hfinite, ← hrounded]
    rfl
  · rw [sub_eq_add_neg] at hsum ⊢
    obtain ⟨hfinite, hrounded⟩ := hleft.add hright.neg hprecision hsum
    rw [Operator.apply_subtract hfinite, ← hrounded]
    rfl

end Settings

/-- The formula has a value, which stands for the exact one. -/
structure Formula.Exactly (s : Settings) (f : Formula) (x : Binary64) (n : ℤ) : Prop where
  reduce : s.reduce f.tree = .ok x
  standsFor : StandsFor s.precision n x
  exact_eq : f.exact * 10 ^ s.precision = n
  bound : |n| ≤ 2 ^ 49

namespace Formula

variable {s : Settings}

theorem exactly_numeral (hprecision : s.precision ≤ Settings.maxPrecision) {n : Numeral}
    (hplaces : (Decimal.ofDigits n.text).places ≤ s.precision)
    (hbound : |(numeral n).exact * 10 ^ s.precision| ≤ 2 ^ 49) :
    ∃ k, (numeral n).Exactly s n.value k := by
  obtain ⟨k, hk⟩ : ∃ k : Nat, (Decimal.ofDigits n.text).value * 10 ^ s.precision = k :=
    ⟨_, Decimal.value_mul_of_places_le hplaces⟩
  have hk' : |(k : ℤ)| ≤ 2 ^ 49 := by
    rw [exact, hk] at hbound
    exact_mod_cast hbound
  have hread : n.value = ofScaled s.precision k := by
    have hvalue : (Decimal.ofDigits n.text).value = (⟨k, s.precision⟩ : Decimal).value :=
      eq_div_of_mul_eq (by positivity) hk
    rw [eq_toBinary64_of_readOperand n.read, Decimal.toBinary64_congr hvalue, ofScaled,
      Int.natAbs_natCast, decide_eq_false (by simp)]
  exact ⟨k, rfl, hread ▸ standsFor_ofScaled hprecision hk', by exact_mod_cast hk, hk'⟩

section Operations

variable {left right : Formula} {a b x : Binary64} {m n : ℤ}

theorem Exactly.negate (h : left.Exactly s x n) : (negate left).Exactly s x.neg (-n) where
  reduce := by
    rw [tree, Settings.reduce, h.reduce]
    rfl
  standsFor := h.standsFor.neg
  exact_eq := by rw [exact, neg_mul, h.exact_eq, Int.cast_neg]
  bound := by rw [abs_neg]; exact h.bound

theorem Exactly.exact_binary (ha : left.Exactly s a m) (hb : right.Exactly s b n) {op : Operator}
    (hop : op = .add ∨ op = .subtract) :
    ∃ sum : ℤ, (op = .add ∧ sum = m + n ∨ op = .subtract ∧ sum = m - n) ∧
      (binary op left right).exact * 10 ^ s.precision = sum := by
  rcases hop with rfl | rfl
  · refine ⟨m + n, Or.inl ⟨rfl, rfl⟩, ?_⟩
    rw [Int.cast_add, ← ha.exact_eq, ← hb.exact_eq, ← add_mul]
    rfl
  · refine ⟨m - n, Or.inr ⟨rfl, rfl⟩, ?_⟩
    rw [Int.cast_sub, ← ha.exact_eq, ← hb.exact_eq, ← sub_mul]
    rfl

theorem Exactly.binary (hs : s.policy = .everyStep)
    (hprecision : s.precision ≤ Settings.maxPrecision) (ha : left.Exactly s a m)
    (hb : right.Exactly s b n) {op : Operator} (hop : op = .add ∨ op = .subtract)
    (hbound : |(binary op left right).exact * 10 ^ s.precision| ≤ 2 ^ 49) :
    ∃ sum, (binary op left right).Exactly s (ofScaled s.precision sum) sum := by
  obtain ⟨sum, hcases, hexact⟩ := ha.exact_binary hb hop
  rw [hexact] at hbound
  have hsum : |sum| ≤ 2 ^ 49 := by exact_mod_cast hbound
  refine ⟨sum, ?_, standsFor_ofScaled hprecision hsum, hexact, hsum⟩
  rw [tree, Settings.reduce, ha.reduce, hb.reduce]
  exact Settings.calculate_sum hs hprecision ha.standsFor ha.bound hb.standsFor hb.bound hcases
    hsum

end Operations

/-- Every sum within the bound has a value that stands for the exact one, since its parts do. -/
theorem exists_exactly (hs : s.policy = .everyStep)
    (hprecision : s.precision ≤ Settings.maxPrecision) {f : Formula} (hsum : f.IsSum)
    (hplaces : ∀ literal ∈ f.literals, (Decimal.ofDigits literal).places ≤ s.precision)
    (hbound : ∀ part ∈ f.parts, |part.exact * 10 ^ s.precision| ≤ 2 ^ 49) :
    ∃ x n, f.Exactly s x n := by
  induction f with
  | numeral n =>
    exact ⟨n.value, exactly_numeral hprecision (hplaces _ (List.mem_singleton_self _))
      (hbound _ (List.mem_singleton_self _))⟩
  | negate operand ih =>
    obtain ⟨x, n, hx⟩ := ih hsum hplaces fun part hpart => hbound part (by simp [parts, hpart])
    exact ⟨x.neg, -n, hx.negate⟩
  | binary op left right ihl ihr =>
    obtain ⟨hop, hleft, hright⟩ := hsum
    obtain ⟨a, m, ha⟩ := ihl hleft (fun l hl => hplaces l (by simp [literals, hl]))
      fun part hpart => hbound part (by simp [parts, hpart])
    obtain ⟨b, n, hb⟩ := ihr hright (fun l hl => hplaces l (by simp [literals, hl]))
      fun part hpart => hbound part (by simp [parts, hpart])
    obtain ⟨sum, hx⟩ := ha.binary hs hprecision hb hop (hbound _ List.mem_cons_self)
    exact ⟨_, sum, hx⟩

/-- What is shown of such a value are the digits of the exact one. -/
theorem Exactly.evaluate {f : Formula} {x : Binary64} {n : ℤ} (h : f.Exactly s x n)
    (hprecision : s.precision ≤ Settings.maxPrecision) {text : List Char}
    (hparse : Expression.parse text = .ok f.tree) :
    s.evaluate text =
      .ok (withSign (decide (n < 0)) (Decimal.text ⟨n.natAbs, s.precision⟩)) := by
  have hrounded := h.standsFor.roundHalfAway hprecision h.bound
  have hagain := (standsFor_ofScaled hprecision h.bound).roundHalfAway hprecision h.bound
  rw [Settings.evaluate_of_reduce hparse h.reduce, displayText, hrounded, hagain,
    fixedText_ofScaled hprecision (h.bound.trans_lt (by norm_num))]

end Formula

/-- Every text that is read has one formula. If that is a sum of decimals with no more places
than are kept, and it and its parts are at most 2 ^ 49 last places great, the digits of its
exact value are shown. -/
theorem decimal_sums_are_exact {precision : Nat} (hprecision : precision ≤ Settings.maxPrecision)
    {text : List Char} {t : Expression} (hparse : Expression.parse text = .ok t) :
    (∃! f : Formula, f.IsOf text) ∧
    ∀ f : Formula, f.IsOf text → f.tree = t ∧ (f.IsSum →
      (∀ literal ∈ f.literals, (Decimal.ofDigits literal).places ≤ precision) →
      (∀ part ∈ f.parts, |part.exact * 10 ^ precision| ≤ 2 ^ 49) →
      ∃ d : Decimal, d.places = precision ∧ d.value = |f.exact| ∧
        Settings.evaluate ⟨.everyStep, precision⟩ text =
          .ok (withSign (decide (f.exact < 0)) d.text)) := by
  obtain ⟨f, hf, -⟩ := Formula.exists_isOf hparse
  refine ⟨⟨f, hf, fun g hg => hg.unique hf⟩, fun f hf => ⟨?_, fun hsum hplaces hbound => ?_⟩⟩
  · exact Except.ok.inj (hf.parse.symm.trans hparse)
  · obtain ⟨x, n, hx⟩ := Formula.exists_exactly (s := ⟨.everyStep, precision⟩) rfl hprecision hsum
      hplaces hbound
    have hpower : (0 : ℚ) < 10 ^ precision := by positivity
    have hexact : f.exact = n / 10 ^ precision := eq_div_of_mul_eq hpower.ne' hx.exact_eq
    refine ⟨⟨n.natAbs, precision⟩, rfl, ?_, ?_⟩
    · rw [hexact, abs_div, abs_of_pos hpower, ← natCast_natAbs]
      rfl
    · have hsign : f.exact < 0 ↔ n < 0 := by
        rw [hexact, div_lt_iff₀ hpower, zero_mul, Int.cast_lt_zero]
      rw [hx.evaluate hprecision hf.parse, decide_eq_decide.mpr hsign]

/-- In binary a tenth and two tenths are more than three tenths, but not after rounding. -/
theorem decimal_sums_are_exact_tenths :
    ∃ f : Formula, f.IsOf "0.1+0.2-0.45".toList ∧ f.IsSum ∧ f.exact = -3 / 20 ∧
      (∀ literal ∈ f.literals, (Decimal.ofDigits literal).places ≤ 2) ∧
      (∀ part ∈ f.parts, |part.exact * 10 ^ 2| ≤ 2 ^ 49) ∧
      Settings.evaluate ⟨.everyStep, 2⟩ "0.1+0.2-0.45".toList = .ok "-0.15".toList := by
  let tenth : Numeral := ⟨"0.1".toList, (⟨1, 1⟩ : Decimal).toBinary64 false, by decide +kernel⟩
  let fifth : Numeral := ⟨"0.2".toList, (⟨2, 1⟩ : Decimal).toBinary64 false, by decide +kernel⟩
  let most : Numeral := ⟨"0.45".toList, (⟨45, 2⟩ : Decimal).toBinary64 false, by decide +kernel⟩
  let f : Formula :=
    .binary .subtract (.binary .add (.numeral tenth) (.numeral fifth)) (.numeral most)
  have hparse : Expression.parse "0.1+0.2-0.45".toList = .ok f.tree := by decide +kernel
  have hf : f.IsOf "0.1+0.2-0.45".toList := ⟨hparse, by decide +kernel⟩
  have htenth : (Decimal.ofDigits "0.1".toList).value = 1 / 10 := by
    rw [show Decimal.ofDigits "0.1".toList = ⟨1, 1⟩ by decide]
    norm_num [Decimal.value]
  have hfifth : (Decimal.ofDigits "0.2".toList).value = 2 / 10 := by
    rw [show Decimal.ofDigits "0.2".toList = ⟨2, 1⟩ by decide]
    norm_num [Decimal.value]
  have hmost : (Decimal.ofDigits "0.45".toList).value = 45 / 100 := by
    rw [show Decimal.ofDigits "0.45".toList = ⟨45, 2⟩ by decide]
    norm_num [Decimal.value]
  have hsum : f.IsSum := ⟨Or.inr rfl, ⟨Or.inl rfl, trivial, trivial⟩, trivial⟩
  have hexact : f.exact = -3 / 20 := by
    simp only [f, tenth, fifth, most, Formula.exact, Operator.exact, htenth, hfifth, hmost]
    norm_num
  have hplaces : ∀ literal ∈ f.literals, (Decimal.ofDigits literal).places ≤ 2 := by decide
  have hbound : ∀ part ∈ f.parts, |part.exact * 10 ^ 2| ≤ 2 ^ 49 := by
    simp only [f, tenth, fifth, most, Formula.parts, List.cons_append, List.nil_append,
      List.forall_mem_cons, Formula.exact, Operator.exact, htenth, hfifth, hmost]
    norm_num
  obtain ⟨d, hd, hvalue, hshown⟩ :=
    ((decimal_sums_are_exact (by decide) hparse).2 f hf).2 hsum hplaces hbound
  refine ⟨f, hf, hsum, hexact, hplaces, hbound, ?_⟩
  have hfifteen : (d.coefficient : ℚ) = 15 := by
    rw [Decimal.value, hd, hexact, div_eq_iff (by norm_num)] at hvalue
    rw [hvalue, abs_of_neg (by norm_num)]
    norm_num
  obtain ⟨coefficient, places⟩ := d
  obtain rfl : coefficient = 15 := by exact_mod_cast hfifteen
  cases hd
  rw [hshown, hexact, decide_eq_true (by norm_num)]
  decide

end PocketCalculator
