/-!
# Completing the typed text

What is evaluated when the typed text is submitted: everything after the last digit or
closing parenthesis is dropped, and the groups still open are closed.
-/
namespace PocketCalculator.Keypad

/-- Whether a typed expression may end with this character. -/
def endsExpression (c : Char) : Bool := c.isDigit || c == ')'

/-- The longest part of the text from its beginning that may end an expression. -/
def submittable (input : List Char) : List Char :=
  (input.reverse.dropWhile fun c => !endsExpression c).reverse

def submission (input : List Char) : List Char :=
  let kept := submittable input
  kept ++ List.replicate (kept.count '(' - kept.count ')') ')'

end PocketCalculator.Keypad
