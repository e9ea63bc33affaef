import PocketCalculator.Proofs.Reading.Phrases

/-!
# Formulas

Expression trees over literals, written with as few parentheses as their shape needs. A written
formula is read as its tree, whatever its shape, as long as it stays within the limits.
-/
namespace PocketCalculator

/-- A literal with the number it is read as. -/
structure Numeral where
  text : List Char
  value : Binary64
  read : readOperand text = .ok value

inductive Formula where
  | numeral (n : Numeral)
  | negate (operand : Formula)
  | binary (op : Operator) (left right : Formula)

/-- A text, in parentheses if they are needed. -/
def grouped (needed : Bool) (text : List Char) : List Char :=
  if needed then '(' :: (text ++ [')']) else text

namespace Formula

/-- The tree of a formula has the numbers of its literals. -/
def tree : Formula → Expression
  | numeral n => .number n.value
  | negate operand => .negate operand.tree
  | binary op left right => .binary op left.tree right.tree

def category : Formula → Category
  | numeral _ => .primary
  | negate _ => .unary
  | binary op _ _ => op.category

/-- A formula as it is written. The operand of a negation is grouped unless it is a literal. A sum
is grouped on both sides of a multiplication or division, but only to the right of an addition or
subtraction, and a product only to the right of a multiplication or division. -/
def text : Formula → List Char
  | numeral n => n.text
  | negate operand => '-' :: grouped (operand.category ≠ .primary) operand.text
  | binary op left right =>
    grouped (left.category.level < op.precedence) left.text ++
      op.glyph :: grouped (right.category.level ≤ op.precedence) right.text

/-- A formula may stand where its category may, and anywhere in parentheses. -/
theorem phrase_grouped {place k : Category} {needed : Bool} {text : List Char} {t : Expression}
    (h : Phrase k text t) (hneeded : needed = false → place.level ≤ k.level) :
    Phrase place (grouped needed text) t := by
  have hexpression : Category.expression.level ≤ k.level := by cases k <;> decide
  have hprimary : place.level ≤ Category.primary.level := by cases place <;> decide
  cases needed with
  | false => exact h.of_level_le (hneeded rfl)
  | true => exact (h.of_level_le hexpression).group.of_level_le hprimary

/-- A written formula is a phrase of its category. -/
theorem phrase_text (f : Formula) : Phrase f.category f.text f.tree := by
  induction f with
  | numeral n => exact .operand n.read
  | negate operand ih =>
    refine Phrase.negate (phrase_grouped ih fun hneeded => ?_)
    simp only [ne_eq, decide_not, Bool.not_eq_false', decide_eq_true_eq] at hneeded
    rw [hneeded]
  | binary op left right ihl ihr =>
    refine .join (Operator.ofGlyph?_glyph op) (phrase_grouped ihl fun hneeded => ?_)
      (phrase_grouped ihr fun hneeded => ?_)
    · rw [op.level_category]
      simpa using hneeded
    · rw [op.level_rightCategory]
      exact Nat.succ_le_of_lt (by simpa using hneeded)

/-- A written formula is read as its tree exactly if the tree is not too high and not too many
groups are nested. -/
theorem parse_text_iff (f : Formula) :
    Expression.parse f.text = .ok f.tree ↔
      f.tree.height ≤ Expression.maxHeight ∧ Keypad.brackets.NestsWithin maxGroups f.text := by
  have hexpression : Category.expression.level ≤ f.category.level := by
    cases f.category <;> decide
  exact (f.phrase_text.of_level_le hexpression).parse_iff

/-- After a group the first minus sign of two subtracts, although it is scanned as a negation. -/
example (a b c d : Numeral) :
    text (.binary .subtract
      (.binary .multiply (.numeral a) (.binary .add (.numeral b) (.numeral c)))
      (.negate (.numeral d))) =
        a.text ++ 'X' :: '(' :: (b.text ++ '+' :: c.text ++ [')']) ++ '-' :: '-' :: d.text := rfl

end Formula

end PocketCalculator
