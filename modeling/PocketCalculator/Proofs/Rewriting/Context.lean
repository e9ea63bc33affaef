import PocketCalculator.Evaluation

/-!
# Trees with a hole

The value of a tree depends on a subtree through the value of the subtree only.
-/
namespace PocketCalculator

inductive Context where
  | hole
  | negate (operand : Context)
  | left (op : Operator) (operand : Context) (right : Expression)
  | right (op : Operator) (left : Expression) (operand : Context)

def Context.fill : Context → Expression → Expression
  | hole, e => e
  | negate c, e => .negate (c.fill e)
  | left op c r, e => .binary op (c.fill e) r
  | right op l c, e => .binary op l (c.fill e)

namespace Settings

variable (s : Settings)

/-- The value of a tree, if it has one. -/
def value? (e : Expression) : Option Binary64 := (s.reduce e).toOption

theorem value?_number (v : Binary64) : s.value? (.number v) = some v := rfl

theorem value?_negate (e : Expression) : s.value? (.negate e) = (s.value? e).map Binary64.neg := by
  rw [value?, value?, reduce]
  cases s.reduce e <;> rfl

theorem value?_binary (op : Operator) (l r : Expression) :
    s.value? (.binary op l r) =
      (s.value? l).bind fun a => (s.value? r).bind fun b => (s.calculate op a b).toOption := by
  rw [value?, value?, value?, reduce]
  cases s.reduce l <;> cases s.reduce r <;> rfl

theorem value?_fill_congr (c : Context) {e e' : Expression} (h : s.value? e = s.value? e') :
    s.value? (c.fill e) = s.value? (c.fill e') := by
  induction c with
  | hole => exact h
  | negate c ih => simp only [Context.fill, value?_negate, ih]
  | left op c right ih => simp only [Context.fill, value?_binary, ih]
  | right op left c ih => simp only [Context.fill, value?_binary, ih]

theorem value?_fill_none (c : Context) {e : Expression} (h : s.value? e = none) :
    s.value? (c.fill e) = none := by
  induction c with
  | hole => exact h
  | negate c ih => simp [Context.fill, value?_negate, ih]
  | left op c right ih => simp [Context.fill, value?_binary, ih]
  | right op left c ih => simp [Context.fill, value?_binary, ih]

end Settings

end PocketCalculator
