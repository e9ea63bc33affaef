import PocketCalculator.Proofs.Decimal.Integers
import PocketCalculator.Proofs.Reading.Literals

/-!
# Integers are computed exactly

Rounding, of whichever kind, leaves integers of at most 2 ^ 53 alone, and so do the operations
as long as their results are such integers. So an expression of integers has its value in integer
arithmetic under all settings.
-/
namespace PocketCalculator

open Binary64

/-- The integer that a decimal is, if it is one. -/
def Decimal.integer? (d : Decimal) : Option Nat :=
  if 10 ^ d.places ∣ d.coefficient then some (d.coefficient / 10 ^ d.places) else none

/-- The operation on integers. Only divisions without remainder have a result. -/
def Operator.onIntegers? : Operator → ℤ → ℤ → Option ℤ
  | add, m, n => some (m + n)
  | subtract, m, n => some (m - n)
  | multiply, m, n => some (m * n)
  | divide, m, n => if n ≠ 0 ∧ n ∣ m then some (m / n) else none

/-- The value in integer arithmetic, if all literals are integers and all divisions come out
even. -/
def Formula.integer? : Formula → Option ℤ
  | numeral n => (Decimal.ofDigits n.text).integer?.map fun k : Nat => (k : ℤ)
  | negate operand => operand.integer?.map fun n => -n
  | binary op left right => do
    let m ← left.integer?
    let n ← right.integer?
    op.onIntegers? m n

theorem Decimal.value_of_integer? {d : Decimal} {k : Nat} (h : d.integer? = some k) :
    d.value = k := by
  unfold integer? at h
  split at h
  · rename_i hdvd
    obtain ⟨quotient, hquotient⟩ := hdvd
    have hpower : 0 < 10 ^ d.places := Nat.pow_pos (by decide)
    rw [hquotient, Nat.mul_div_cancel_left _ hpower] at h
    obtain rfl := Option.some.inj h
    rw [value, hquotient, Nat.cast_mul, Nat.cast_pow, Nat.cast_ofNat,
      mul_div_cancel_left₀ _ (by positivity)]
  · cases h

/-! ## One operation -/

variable {a b : Binary64} {m n q : ℤ}

theorem Operator.apply_integers (ha : IsInteger m a) (hb : IsInteger n b) {op : Operator}
    (h : op.onIntegers? m n = some q) (hq : |q| ≤ 2 ^ 53) :
    ∃ x, op.apply a b = .ok x ∧ IsInteger q x := by
  cases op with
  | add =>
    obtain rfl := Option.some.inj h
    have hsum := ha.add hb hq
    exact ⟨a.add b, if_pos hsum.isFinite, hsum⟩
  | subtract =>
    obtain rfl := Option.some.inj h
    have hdifference := ha.sub hb hq
    exact ⟨a.sub b, if_pos hdifference.isFinite, hdifference⟩
  | multiply =>
    obtain rfl := Option.some.inj h
    have hproduct := ha.mul hb hq
    exact ⟨a.mul b, if_pos hproduct.isFinite, hproduct⟩
  | divide =>
    rw [onIntegers?] at h
    split at h
    · rename_i heven
      obtain ⟨hn, hdvd⟩ := heven
      obtain rfl := Option.some.inj h
      rw [← Int.ediv_mul_cancel hdvd] at ha
      have hquotient := ha.div hb hn hq
      refine ⟨a.div b, ?_, hquotient⟩
      unfold apply
      rw [hb.isZero_eq_false hn]
      exact if_pos hquotient.isFinite
    · cases h

theorem Settings.calculate_integers (s : Settings) (ha : IsInteger m a) (hb : IsInteger n b)
    {op : Operator} (h : op.onIntegers? m n = some q) (hq : |q| ≤ 2 ^ 53) :
    ∃ x, s.calculate op a b = .ok x ∧ IsInteger q x := by
  unfold calculate
  split
  · obtain ⟨x, hx, hinteger⟩ := Operator.apply_integers (ha.roundHalfAway s.precision)
      (hb.roundHalfAway s.precision) h hq
    refine ⟨x.roundHalfAway s.precision, ?_, hinteger.roundHalfAway s.precision⟩
    rw [hx]
    rfl
  · exact Operator.apply_integers ha hb h hq

/-! ## Whole expressions -/

theorem Formula.self_mem_parts (f : Formula) : f ∈ f.parts := by
  cases f <;> exact List.mem_cons_self

/-- An expression of integers has its value in integer arithmetic, since its parts do. -/
theorem Formula.exists_isInteger (s : Settings) {f : Formula} {n : ℤ} (h : f.integer? = some n)
    (hbound : ∀ part ∈ f.parts, ∀ m ∈ part.integer?, |m| ≤ 2 ^ 53) :
    ∃ x, s.reduce f.tree = .ok x ∧ IsInteger n x := by
  induction f generalizing n with
  | numeral literal =>
    obtain ⟨k, hk, rfl⟩ := Option.map_eq_some_iff.mp h
    refine ⟨literal.value, rfl, ?_⟩
    rw [eq_toBinary64_of_readOperand literal.read]
    refine Decimal.isInteger_toBinary64 (Decimal.value_of_integer? hk) ?_
    have hwhole := hbound _ (self_mem_parts _) _ h
    rw [Nat.abs_cast] at hwhole
    exact_mod_cast hwhole
  | negate operand ih =>
    obtain ⟨m, hm, rfl⟩ := Option.map_eq_some_iff.mp h
    obtain ⟨x, hx, hinteger⟩ := ih hm fun part hpart => hbound part (by simp [parts, hpart])
    refine ⟨x.neg, ?_, hinteger.neg⟩
    rw [tree, Settings.reduce, hx]
    rfl
  | binary op left right ihl ihr =>
    obtain ⟨k, hk, hrest⟩ := Option.bind_eq_some_iff.mp h
    obtain ⟨l, hl, hop⟩ := Option.bind_eq_some_iff.mp hrest
    obtain ⟨a, ha, hainteger⟩ := ihl hk fun part hpart => hbound part (by simp [parts, hpart])
    obtain ⟨b, hb, hbinteger⟩ := ihr hl fun part hpart => hbound part (by simp [parts, hpart])
    obtain ⟨x, hx, hinteger⟩ := s.calculate_integers hainteger hbinteger hop
      (hbound _ (self_mem_parts _) _ h)
    refine ⟨x, ?_, hinteger⟩
    rw [tree, Settings.reduce, ha, hb]
    exact hx

/-- Every text that is read has one formula. If that has a value in integer arithmetic, and no
literal and no result on the way to it is greater than 2 ^ 53, the digits of that value are shown,
with as many zeros after the point as there are places. -/
theorem integers_are_exact (s : Settings) {text : List Char} {t : Expression}
    (hparse : Expression.parse text = .ok t) :
    (∃! f : Formula, f.IsOf text) ∧
    ∀ f : Formula, f.IsOf text → f.tree = t ∧ ∀ n, f.integer? = some n →
      (∀ part ∈ f.parts, ∀ m ∈ part.integer?, |m| ≤ 2 ^ 53) →
      s.evaluate text = .ok (withSign (decide (n < 0))
        (Nat.toDigits 10 n.natAbs ++ Decimal.zeroFraction s.precision)) := by
  obtain ⟨f, hf, -⟩ := Formula.exists_isOf hparse
  refine ⟨⟨f, hf, fun g hg => hg.unique hf⟩, fun f hf => ⟨?_, fun n hn hbound => ?_⟩⟩
  · exact Except.ok.inj (hf.parse.symm.trans hparse)
  · obtain ⟨x, hx, hinteger⟩ := f.exists_isInteger s hn hbound
    rw [Settings.evaluate_of_reduce hf.parse hx, displayText, roundHalfAway_roundHalfAway,
      hinteger.fixedText_roundHalfAway]

/-- A negative zero, a literal with a fraction and the greatest integers. -/
theorem integers_are_exact_greatest :
    let text := "0X-5+9007199254740992/-(3.0-1)X2".toList
    ∃ f : Formula, f.IsOf text ∧ f.integer? = some (-2 ^ 53) ∧
      (∀ part ∈ f.parts, ∀ m ∈ part.integer?, |m| ≤ 2 ^ 53) ∧
      Settings.evaluate ⟨.everyStep, 3⟩ text = .ok "-9007199254740992.000".toList := by
  intro text
  let zero : Numeral := ⟨"0".toList, (⟨0, 0⟩ : Decimal).toBinary64 false, by decide +kernel⟩
  let one : Numeral := ⟨"1".toList, (⟨1, 0⟩ : Decimal).toBinary64 false, by decide +kernel⟩
  let two : Numeral := ⟨"2".toList, (⟨2, 0⟩ : Decimal).toBinary64 false, by decide +kernel⟩
  let three : Numeral := ⟨"3.0".toList, (⟨30, 1⟩ : Decimal).toBinary64 false, by decide +kernel⟩
  let five : Numeral := ⟨"5".toList, (⟨5, 0⟩ : Decimal).toBinary64 false, by decide +kernel⟩
  let greatest : Numeral :=
    ⟨"9007199254740992".toList, (⟨2 ^ 53, 0⟩ : Decimal).toBinary64 false, by decide +kernel⟩
  let divisor : Formula := .negate (.binary .subtract (.numeral three) (.numeral one))
  let f : Formula :=
    .binary .add (.binary .multiply (.numeral zero) (.negate (.numeral five)))
      (.binary .multiply (.binary .divide (.numeral greatest) divisor) (.numeral two))
  have hparse : Expression.parse text = .ok f.tree := by decide +kernel
  have hf : f.IsOf text := ⟨hparse, by decide +kernel⟩
  have hvalue : f.integer? = some (-2 ^ 53) := by decide +kernel
  have hbound : ∀ part ∈ f.parts, ∀ m ∈ part.integer?, |m| ≤ 2 ^ 53 := by decide +kernel
  have hshown := ((integers_are_exact ⟨.everyStep, 3⟩ hparse).2 f hf).2 _ hvalue hbound
  exact ⟨f, hf, hvalue, hbound, hshown⟩

end PocketCalculator
