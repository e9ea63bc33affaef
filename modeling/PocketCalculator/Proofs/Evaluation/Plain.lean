import PocketCalculator.Proofs.Decimal.Plain
import PocketCalculator.Proofs.Evaluation.FixedPoint

/-!
# What is shown is a plain decimal

Every value between two operations is finite, and so is a rounded value, which is no negative
zero either. It is printed with as many places as it was rounded to, and only zero is printed
in zeros. So a display holds a plain decimal, with a minus sign only before a digit other than
zero.
-/
namespace PocketCalculator

/-! ## Values between operations -/

namespace Expression

/-- The tree and every tree in it, in the order in which they are reached. -/
def parts : Expression → List Expression
  | number value => [number value]
  | negate operand => negate operand :: operand.parts
  | binary op left right => binary op left right :: (left.parts ++ right.parts)

theorem AllNumbers.of_mem_parts {P : Binary64 → Prop} {t part : Expression}
    (h : t.AllNumbers P) (hpart : part ∈ t.parts) : part.AllNumbers P := by
  induction t with
  | number value =>
    rw [List.mem_singleton.mp hpart]
    exact h
  | negate operand ih =>
    rcases List.mem_cons.mp hpart with rfl | hoperand
    · exact h
    · exact ih h hoperand
  | binary op left right ihl ihr =>
    rcases List.mem_cons.mp hpart with rfl | hside
    · exact h
    · rcases List.mem_append.mp hside with hleft | hright
      · exact ihl h.1 hleft
      · exact ihr h.2 hright

end Expression

/-! ## Plain texts -/

/-- A plain decimal with exactly `places` fraction digits, after a minus sign only if one of its
digits is not zero. -/
def IsPlainText (places : Nat) (text : List Char) : Prop :=
  ∃ negative whole fraction, text = withSign negative (whole ++ fraction) ∧
    Decimal.IsWhole whole ∧ Decimal.IsFraction places fraction ∧
    (Decimal.AllZeros text → negative = false)

theorem Binary64.isPlainText_fixedText {negative : Bool} {rank : Fin infinityRank} {places : Nat}
    (h : (finite negative rank).FitsIn places) :
    IsPlainText places ((finite negative rank).fixedText places) := by
  obtain ⟨hfits, hsign⟩ := h
  obtain ⟨whole, fraction, htext, hwhole, hfraction⟩ :=
    (Decimal.printed rank places).exists_text_eq
  refine ⟨negative, whole, fraction, by rw [fixedText_finite, htext], hwhole, hfraction, ?_⟩
  intro hzeros
  apply hsign
  by_contra hrank
  refine Decimal.coefficient_printed_ne_zero hrank hfits
    (Decimal.coefficient_eq_zero_of_allZeros fun c hc => hzeros c ?_)
  rw [fixedText_finite, withSign]
  split
  · exact List.mem_cons_of_mem _ hc
  · exact hc

theorem IsPlainText.eq_minus_or_isOperandChar {places : Nat} {text : List Char}
    (h : IsPlainText places text) {c : Char} (hc : c ∈ text) :
    c = '-' ∨ isOperandChar c = true := by
  obtain ⟨negative, whole, fraction, rfl, hwhole, hfraction, -⟩ := h
  have hdigits : ∀ c ∈ whole ++ fraction, isOperandChar c = true := by
    intro c hc
    rcases List.mem_append.mp hc with hc | hc
    · exact isOperandChar_of_isDigit (hwhole.isDigit c hc)
    · cases hfraction with
      | none => cases hc
      | point hlength hfraction =>
        rcases List.mem_cons.mp hc with rfl | hc
        · rfl
        · exact isOperandChar_of_isDigit (hfraction c hc)
  cases negative with
  | false => exact Or.inr (hdigits c hc)
  | true =>
    rcases List.mem_cons.mp hc with rfl | hc
    · exact Or.inl rfl
    · exact Or.inr (hdigits c hc)

theorem IsPlainText.not_special {places : Nat} {text : List Char} (h : IsPlainText places text) :
    text ∉ ["inf".toList, "-inf".toList, "NaN".toList] := by
  have hletter : ∀ c ∈ text, c ≠ 'n' ∧ c ≠ 'N' := by
    intro c hc
    rcases h.eq_minus_or_isOperandChar hc with rfl | hchar
    · decide
    · constructor <;> (rintro rfl; cases hchar)
  intro hmem
  simp only [List.mem_cons, List.not_mem_nil, or_false] at hmem
  rcases hmem with rfl | rfl | rfl
  · exact (hletter 'n' (by decide)).1 rfl
  · exact (hletter 'n' (by decide)).1 rfl
  · exact (hletter 'N' (by decide)).2 rfl

/-! ## Displays -/

theorem Binary64.FitsIn.ne_zero_true {x : Binary64} {places : Nat} (h : x.FitsIn places) :
    x ≠ .zero true := by
  rintro rfl
  cases h.2 rfl

namespace Settings

/-- Only plain decimals are shown, of finite values other than negative zero, and every value on
the way to them is finite, rounded or not. -/
theorem displays_are_plain (s : Settings) (text : List Char) :
    (∀ shown, s.evaluate text = .ok shown →
      IsPlainText s.precision shown ∧
        shown ∉ ["inf".toList, "-inf".toList, "NaN".toList]) ∧
    (∀ x, s.evaluateValue text = .ok x → x.isFinite = true ∧ x ≠ .zero true) ∧
    ∀ tree, Expression.parse text = .ok tree → ∀ part ∈ tree.parts, ∀ x,
      s.reduce part = .ok x →
        x.isFinite = true ∧ (x.roundHalfAway s.precision).isFinite = true := by
  refine ⟨?shown, ?value, ?parts⟩
  case shown =>
    intro shown h
    obtain ⟨negative, rank, hfits, rfl⟩ := exists_fitsIn_of_evaluate h
    have hplain := Binary64.isPlainText_fixedText hfits
    exact ⟨hplain, hplain.not_special⟩
  case value =>
    intro x h
    exact ⟨isFinite_of_evaluateValue h, (fitsIn_of_evaluateValue h).ne_zero_true⟩
  case parts =>
    intro tree htree part hpart x hx
    have hfinite :=
      isFinite_of_reduce ((Expression.allFinite_of_parse htree).of_mem_parts hpart) hx
    exact ⟨hfinite, Binary64.isFinite_roundHalfAway hfinite _⟩

/-- A negative value that rounds to zero is shown without a minus sign. -/
theorem displays_are_plain_negative_rounded_to_zero :
    let s : Settings := ⟨.finalOnly, 1⟩
    let text := "0-0.04".toList
    let right := (⟨4, 2⟩ : Decimal).toBinary64 false
    let tree := Expression.binary .subtract (.number (.zero false)) (.number right)
    (s.evaluate text = .ok "0.0".toList ∧ IsPlainText 1 "0.0".toList) ∧
    (s.evaluateValue text = .ok (.zero false) ∧ Binary64.zero false ≠ .zero true) ∧
    Expression.parse text = .ok tree ∧ tree ∈ tree.parts ∧ s.reduce tree = .ok right.neg ∧
      right.neg.isFinite = true ∧ (right.neg.roundHalfAway 1).isFinite = true := by
  intro s text right tree
  have hshown : s.evaluate text = .ok "0.0".toList := by decide +kernel
  have hvalue : s.evaluateValue text = .ok (.zero false) := by decide +kernel
  have hparse : Expression.parse text = .ok tree := by decide +kernel
  have hreduce : s.reduce tree = .ok right.neg := by decide +kernel
  have hpart : tree ∈ tree.parts := List.mem_cons_self
  obtain ⟨hplain, hfinite, hparts⟩ := displays_are_plain s text
  exact ⟨⟨hshown, (hplain _ hshown).1⟩, ⟨hvalue, (hfinite _ hvalue).2⟩, hparse, hpart, hreduce,
    hparts _ hparse _ hpart _ hreduce⟩

end Settings

end PocketCalculator
