import PocketCalculator.Proofs.Decimal.Rounding
import PocketCalculator.Proofs.Evaluation.Finite
import PocketCalculator.Proofs.Evaluation.Outcomes

/-!
# Operands may be rounded in advance

A calculator that rounds at every step looks at the operands of an operation only after it has
rounded them. So the numbers of a tree can be rounded beforehand. Negations stand between the
operations and are exact, but rounding treats a number and its negation alike.
-/
namespace PocketCalculator

/-- The tree with its numbers rounded. -/
def Expression.roundNumbers (places : Nat) : Expression → Expression
  | number value => .number (value.roundHalfAway places)
  | negate operand => .negate (operand.roundNumbers places)
  | binary op left right => .binary op (left.roundNumbers places) (right.roundNumbers places)

theorem Expression.AllNumbers.roundNumbers_eq {places : Nat} {t : Expression}
    (h : t.AllNumbers fun x => x.roundHalfAway places = x) : t.roundNumbers places = t := by
  induction t with
  | number value => exact congrArg number h
  | negate operand ih => exact congrArg negate (ih h)
  | binary op left right ihl ihr => rw [roundNumbers, ihl h.1, ihr h.2]

/-- The same fault, or values that are rounded to the same number. -/
inductive AgreeRounded (places : Nat) : Except Fault Binary64 → Except Fault Binary64 → Prop where
  | fault (f : Fault) : AgreeRounded places (.error f) (.error f)
  | value {a b : Binary64} (h : a.roundHalfAway places = b.roundHalfAway places) :
      AgreeRounded places (.ok a) (.ok b)

namespace AgreeRounded

variable {places : Nat} {x y : Except Fault Binary64}

theorem refl (places : Nat) (x : Except Fault Binary64) : AgreeRounded places x x := by
  cases x with
  | error f => exact .fault f
  | ok a => exact .value rfl

theorem neg (h : AgreeRounded places x y) :
    AgreeRounded places (x.map Binary64.neg) (y.map Binary64.neg) := by
  cases h with
  | fault f => exact .fault f
  | value h => exact .value (by rw [Binary64.roundHalfAway_neg, Binary64.roundHalfAway_neg, h])

/-- Who only looks at the rounded values cannot tell the outcomes apart. -/
theorem bind_eq {f g : Binary64 → Except Fault Binary64} (h : AgreeRounded places x y)
    (hfg : ∀ a b, a.roundHalfAway places = b.roundHalfAway places → f a = g b) :
    x >>= f = y >>= g := by
  cases h with
  | fault f => rfl
  | value h => exact hfg _ _ h

end AgreeRounded

namespace Settings

variable {s : Settings}

theorem calculate_congr (hs : s.policy = .everyStep) (op : Operator) {a a' b b' : Binary64}
    (ha : a.roundHalfAway s.precision = a'.roundHalfAway s.precision)
    (hb : b.roundHalfAway s.precision = b'.roundHalfAway s.precision) :
    s.calculate op a b = s.calculate op a' b' := by
  simp only [calculate, hs, ha, hb]

theorem roundHalfAway_of_calculate (hs : s.policy = .everyStep) {op : Operator}
    {a b x : Binary64} (h : s.calculate op a b = .ok x) : x.roundHalfAway s.precision = x := by
  simp only [calculate, hs] at h
  obtain ⟨y, -, rfl⟩ := exists_of_map_eq_ok h
  exact Binary64.roundHalfAway_roundHalfAway y s.precision

theorem reduce_binary_congr (hs : s.policy = .everyStep) (op : Operator)
    {left left' right right' : Expression}
    (hleft : AgreeRounded s.precision (s.reduce left) (s.reduce left'))
    (hright : AgreeRounded s.precision (s.reduce right) (s.reduce right')) :
    s.reduce (.binary op left right) = s.reduce (.binary op left' right') :=
  hleft.bind_eq fun _ _ ha => hright.bind_eq fun _ _ hb => calculate_congr hs op ha hb

theorem roundHalfAway_of_reduce_binary (hs : s.policy = .everyStep) {op : Operator}
    {left right : Expression} {x : Binary64} (h : s.reduce (.binary op left right) = .ok x) :
    x.roundHalfAway s.precision = x := by
  obtain ⟨a, _, h⟩ := Reader.bind_eq_ok h
  obtain ⟨b, _, h⟩ := Reader.bind_eq_ok h
  exact roundHalfAway_of_calculate hs h

/-- Rounding the numbers of a tree changes its value only by rounding. -/
theorem agreeRounded_roundNumbers (hs : s.policy = .everyStep) (t : Expression) :
    AgreeRounded s.precision (s.reduce t) (s.reduce (t.roundNumbers s.precision)) := by
  induction t with
  | number value => exact .value (Binary64.roundHalfAway_roundHalfAway value s.precision).symm
  | negate operand ih => exact ih.neg
  | binary op left right ihl ihr =>
    rw [Expression.roundNumbers, ← reduce_binary_congr hs op ihl ihr]
    exact .refl _ _

/-- Where every step is rounded, the numbers of a tree can be rounded in advance: the outcome
stays the same up to rounding, and exactly the same if the tree ends in an operation, whose
result is rounded already. -/
theorem operands_rounded_in_advance (precision : Nat) (t : Expression) :
    let s : Settings := ⟨.everyStep, precision⟩
    AgreeRounded precision (s.reduce t) (s.reduce (t.roundNumbers precision)) ∧
    ∀ op left right, t = .binary op left right →
      s.reduce t = s.reduce (t.roundNumbers precision) ∧
      (∀ x, s.reduce t = .ok x → x.roundHalfAway precision = x) ∧
      ∀ text, Expression.parse text = .ok t → s.evaluateValue text = s.reduce t := by
  intro s
  refine ⟨agreeRounded_roundNumbers (s := s) rfl t, ?_⟩
  rintro op left right rfl
  have hfixed : ∀ x, s.reduce (.binary op left right) = .ok x → x.roundHalfAway precision = x :=
    fun x hx => roundHalfAway_of_reduce_binary rfl hx
  refine ⟨reduce_binary_congr rfl op (agreeRounded_roundNumbers rfl left)
    (agreeRounded_roundNumbers rfl right), hfixed, ?_⟩
  intro text htext
  rw [evaluateValue_of_parse htext]
  cases hreduce : s.reduce (.binary op left right) with
  | error fault => rfl
  | ok x => exact congrArg Except.ok (hfixed x hreduce)

/-- A quarter under a minus sign goes up to three tenths before it is doubled. -/
theorem operands_rounded_in_advance_quarter :
    let s : Settings := ⟨.everyStep, 1⟩
    let text := "2X-0.25".toList
    let two := (⟨2, 0⟩ : Decimal).toBinary64 false
    let quarter := (⟨25, 2⟩ : Decimal).toBinary64 false
    let product := (⟨6, 1⟩ : Decimal).toBinary64 true
    let t := Expression.binary .multiply (.number two) (.negate (.number quarter))
    AgreeRounded 1 (s.reduce t) (s.reduce (t.roundNumbers 1)) ∧ t.roundNumbers 1 ≠ t ∧
      s.reduce t = .ok product ∧ s.reduce (t.roundNumbers 1) = .ok product ∧
      product.roundHalfAway 1 = product ∧
      Expression.parse text = .ok t ∧ s.evaluateValue text = .ok product := by
  intro s text two quarter product t
  have hreduce : s.reduce t = .ok product := by decide +kernel
  have hparse : Expression.parse text = .ok t := by decide +kernel
  have hrounded : t.roundNumbers 1 ≠ t := by decide +kernel
  -- What is left is about any such numbers, which must not be computed again.
  clear_value two quarter product
  obtain ⟨hagree, hbinary⟩ := operands_rounded_in_advance 1 t
  obtain ⟨hequal, hfixed, hvalue⟩ := hbinary .multiply _ _ rfl
  exact ⟨hagree, hrounded, hreduce, hequal.symm.trans hreduce, hfixed _ hreduce, hparse,
    (hvalue text hparse).trans hreduce⟩

end Settings

end PocketCalculator
