import PocketCalculator.Proofs.Decimal.Value
import PocketCalculator.Proofs.Formula

/-!
# The formula of a text

The tree of a text has only the numbers that its literals are read as. With the literals
themselves it is a formula, which every text that is read has exactly one of, and which has an
exact rational value.
-/
namespace PocketCalculator

def Token.literal? : Token → Option (List Char)
  | literal text => some text
  | _ => none

/-- The literals of a text, in order. -/
def literalsOf (text : List Char) : List (List Char) :=
  (Token.scan text).filterMap Token.literal?

/-- The operation on rational numbers. -/
def Operator.exact : Operator → ℚ → ℚ → ℚ
  | add => (· + ·)
  | subtract => (· - ·)
  | multiply => (· * ·)
  | divide => (· / ·)

/-- How many numbers a tree has. -/
def Expression.leaves : Expression → Nat
  | number _ => 1
  | negate operand => operand.leaves
  | binary _ left right => left.leaves + right.leaves

namespace Formula

/-- The literals of a formula, in order. -/
def literals : Formula → List (List Char)
  | numeral n => [n.text]
  | negate operand => operand.literals
  | binary _ left right => left.literals ++ right.literals

/-- The formula and all those that it is made of. -/
def parts : Formula → List Formula
  | numeral n => [numeral n]
  | negate operand => negate operand :: operand.parts
  | binary op left right => binary op left right :: (left.parts ++ right.parts)

/-- The value in rational arithmetic, with the literals taken as the decimals they are. -/
def exact : Formula → ℚ
  | numeral n => (Decimal.ofDigits n.text).value
  | negate operand => -operand.exact
  | binary op left right => op.exact left.exact right.exact

/-- The text is read as the tree of the formula, and has its literals. -/
structure IsOf (f : Formula) (text : List Char) : Prop where
  parse : Expression.parse text = .ok f.tree
  literals : f.literals = literalsOf text

/-! ## One formula at most -/

theorem length_literals (f : Formula) : f.literals.length = f.tree.leaves := by
  induction f with
  | numeral n => rfl
  | negate operand ih => exact ih
  | binary op left right ihl ihr =>
    rw [literals, List.length_append, ihl, ihr, tree, Expression.leaves]

/-- A formula is known by its tree and its literals. -/
theorem eq_of_tree_of_literals {f g : Formula} (h : f.tree = g.tree)
    (hliterals : f.literals = g.literals) : f = g := by
  induction f generalizing g with
  | numeral n =>
    cases g with
    | numeral n' =>
      obtain ⟨text, value, read⟩ := n
      obtain ⟨text', value', read'⟩ := n'
      obtain rfl : text = text' := (List.cons.inj hliterals).1
      obtain rfl : value = value' := Expression.number.inj h
      rfl
    | negate operand => cases h
    | binary op left right => cases h
  | negate operand ih =>
    cases g with
    | numeral n => cases h
    | negate operand' =>
      have hoperand : operand.tree = operand'.tree := Expression.negate.inj h
      rw [ih hoperand hliterals]
    | binary op left right => cases h
  | binary op left right ihl ihr =>
    cases g with
    | numeral n => cases h
    | negate operand => cases h
    | binary op' left' right' =>
      obtain ⟨rfl, hleft, hright⟩ := Expression.binary.inj h
      have hlength : left.literals.length = left'.literals.length := by
        rw [length_literals, length_literals, hleft]
      obtain ⟨hl, hr⟩ := List.append_inj hliterals hlength
      rw [ihl hleft hl, ihr hright hr]

theorem IsOf.unique {f g : Formula} {text : List Char} (hf : f.IsOf text) (hg : g.IsOf text) :
    f = g := by
  have htree : f.tree = g.tree := Except.ok.inj (hf.parse.symm.trans hg.parse)
  exact eq_of_tree_of_literals htree (hf.literals.trans hg.literals.symm)

end Formula

/-! ## One formula at least -/

theorem Token.literal?_of_terminal {token : Token} {x : Terminal} (h : token.terminal = .ok x)
    (hx : ∀ value, x ≠ .number value) : token.literal? = none := by
  cases x with
  | number value => exact absurd rfl (hx value)
  | _ =>
    cases of_terminal h
    rfl

theorem Derives.exists_formula {k : Category} {w : List Terminal} {t : Expression}
    (h : Derives k w t) {tokens : List Token} (hr : Reads tokens w) :
    ∃ f : Formula, f.tree = t ∧ f.literals = tokens.filterMap Token.literal? := by
  -- Only numbers are read from literals, so parentheses, signs and operators add none.
  induction h generalizing tokens with
  | number value =>
    obtain ⟨token, rest, rfl, htoken, hrest⟩ := hr.cons_inv
    obtain ⟨text, rfl, hread⟩ := Token.of_terminal htoken
    cases hrest
    exact ⟨.numeral ⟨text, value, hread⟩, rfl, rfl⟩
  | group _ ih =>
    obtain ⟨opening, rest, rfl, hopening, hrest⟩ := hr.cons_inv
    obtain ⟨inner, closing, rfl, hinner, hclosing⟩ := hrest.append_inv
    obtain ⟨token, after, rfl, htoken, hafter⟩ := hclosing.cons_inv
    cases Token.of_terminal hopening
    cases Token.of_terminal htoken
    cases hafter
    obtain ⟨f, hf, hliterals⟩ := ih hinner
    refine ⟨f, hf, ?_⟩
    rw [hliterals, List.filterMap_cons_none rfl, List.filterMap_append,
      List.filterMap_cons_none rfl, List.filterMap_nil, List.append_nil]
  | signed n _ ih =>
    obtain ⟨signs, operand, rfl, hsigns, hoperand⟩ := hr.append_inv
    obtain rfl := Reader.reads_replicate_negation hsigns
    obtain ⟨f, rfl, hliterals⟩ := ih hoperand
    have hnone : (List.replicate n Token.negation).filterMap Token.literal? = [] := by
      simp [Token.literal?]
    rw [List.filterMap_append, hnone, List.nil_append, ← hliterals, Expression.negateTimes]
    split
    · exact ⟨f, rfl, rfl⟩
    · exact ⟨.negate f, rfl, rfl⟩
  | unary _ ih => exact ih hr
  | term _ ih => exact ih hr
  | @join _ _ _ op _ _ _ _ _ hj _ ihl ihr =>
    obtain ⟨before, rest, rfl, hbefore, hrest⟩ := hr.append_inv
    obtain ⟨token, after, rfl, htoken, hafter⟩ := hrest.cons_inv
    obtain ⟨l, rfl, hl⟩ := ihl hbefore
    obtain ⟨r, rfl, hr⟩ := ihr hafter
    have hnone : token.literal? = none := by
      refine Token.literal?_of_terminal htoken fun value => ?_
      rcases hj.eq_operator_or_negation with rfl | rfl <;> simp
    refine ⟨.binary op l r, rfl, ?_⟩
    rw [Formula.literals, hl, hr, List.filterMap_append, List.filterMap_cons_none hnone]

theorem Formula.exists_isOf {text : List Char} {t : Expression}
    (h : Expression.parse text = .ok t) : ∃ f : Formula, f.IsOf text ∧ f.tree = t := by
  obtain ⟨⟨w, hw, hd⟩, -⟩ := Expression.denotes_of_ofTokens h
  obtain ⟨f, rfl, hliterals⟩ := hd.exists_formula hw
  exact ⟨f, ⟨h, hliterals⟩, rfl⟩

end PocketCalculator
