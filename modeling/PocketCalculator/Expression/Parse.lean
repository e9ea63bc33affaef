import PocketCalculator.Expression.Basic
import PocketCalculator.Operand
import PocketCalculator.Token.Scan

/-!
# From tokens to trees

Parentheses are checked over the whole token list first, so an unbalanced expression is
always reported as such. The tree is then read by descent: sums of products of operands with
leading negations, all operators folded to the left. A `Reader` never gives back more tokens
than it was given, which bounds the folds; how many groups may still be opened bounds the
nesting. The cursor is kept also when reading fails, since reading can be resumed there.
-/
namespace PocketCalculator

/-- How many groups may be open at once. -/
def maxGroups : Nat := 256

/-- The fault of unbalanced parentheses, if there is one: the first closing parenthesis
without an open group, else the groups left open. -/
def parenthesisFault (tokens : List Token) : Option Fault :=
  go 0 0 tokens
where
  go (index opened : Nat) : List Token → Option Fault
    | [] => if opened = 0 then none else some (.unclosedGroups opened)
    | .openParen :: rest => go (index + 1) (opened + 1) rest
    | .closeParen :: rest =>
      if opened = 0 then some (.unmatchedClose index) else go (index + 1) (opened - 1) rest
    | _ :: rest => go (index + 1) opened rest

/-- Where reading stands: the tokens left, how many were taken, and the groups open. -/
structure Cursor where
  rest : List Token
  position : Nat
  depth : Nat
  deriving DecidableEq, Repr

namespace Cursor

def start (tokens : List Token) : Cursor := ⟨tokens, 0, 0⟩

/-- Takes one token if there is one. -/
def advance (c : Cursor) : Cursor :=
  match c.rest with
  | [] => c
  | _ :: rest => { c with rest := rest, position := c.position + 1 }

/-- Takes the leading negations. -/
def skipNegations (c : Cursor) : Cursor :=
  { c with
    rest := c.rest.dropWhile (· == .negation)
    position := c.position + (c.rest.takeWhile (· == .negation)).length }

theorem advance_rest_length_lt {c : Cursor} {token : Token} {rest : List Token}
    (h : c.rest = token :: rest) : c.advance.rest.length < c.rest.length := by
  simp [advance, h]

theorem advance_rest_length_le (c : Cursor) : c.advance.rest.length ≤ c.rest.length := by
  cases h : c.rest with
  | nil => simp [advance, h]
  | cons token rest => simp [advance, h]

theorem skipNegations_rest_length_le (c : Cursor) :
    c.skipNegations.rest.length ≤ c.rest.length :=
  (List.dropWhile_sublist _).length_le

end Cursor

/-- What reading gave, and the cursor after it. -/
structure Reading where
  outcome : Except Fault Branch
  cursor : Cursor

/-- A reading from the cursor `c`, after which no more tokens are left than before. -/
abbrev Reply (c : Cursor) := { r : Reading // r.cursor.rest.length ≤ c.rest.length }

abbrev Reader := (c : Cursor) → Reply c

namespace Reply

/-- A reply from a later cursor is one from an earlier cursor. -/
@[inline] def widen {c d : Cursor} (r : Reply d) (h : d.rest.length ≤ c.rest.length) : Reply c :=
  ⟨r.val, Nat.le_trans r.property h⟩

def stay (c : Cursor) (outcome : Except Fault Branch) : Reply c :=
  ⟨⟨outcome, c⟩, Nat.le_refl _⟩

def advance (c : Cursor) (outcome : Except Fault Branch) : Reply c :=
  (stay c.advance outcome).widen c.advance_rest_length_le

end Reply

namespace Reader

/-- The operator of the given precedence that a token is between two values; a negation
there subtracts. -/
def operatorAt (precedence : Nat) (token : Token) : Option Operator :=
  let op := match token with
    | .operator op => some op
    | .negation => some .subtract
    | _ => none
  op.filter (·.precedence = precedence)

/-- Folds the operators of one precedence and the operands after them onto a left side. -/
def fold (precedence : Nat) (operand : Reader) (left : Branch) (c : Cursor) : Reply c :=
  match h : c.rest with
  | [] => .stay c (.ok left)
  | token :: _ =>
    match operatorAt precedence token with
    | none => .stay c (.ok left)
    | some op =>
      match operand c.advance with
      | ⟨⟨outcome, next⟩, notLonger⟩ =>
        have shorter : next.rest.length < c.rest.length :=
          Nat.lt_of_le_of_lt notLonger (Cursor.advance_rest_length_lt h)
        match outcome.bind (Branch.join op left) with
        | .error fault => ⟨⟨.error fault, next⟩, Nat.le_of_lt shorter⟩
        | .ok joined => (fold precedence operand joined next).widen (Nat.le_of_lt shorter)
termination_by c.rest.length

/-- Operands joined by the operators of one precedence. -/
def chain (precedence : Nat) (operand : Reader) : Reader := fun c =>
  match operand c with
  | ⟨⟨.error fault, next⟩, notLonger⟩ => ⟨⟨.error fault, next⟩, notLonger⟩
  | ⟨⟨.ok left, next⟩, notLonger⟩ => (fold precedence operand left next).widen notLonger

/-- A primary after any number of negations, of which two cancel. -/
def signed (primary : Reader) : Reader := fun c =>
  let signs := c.rest.takeWhile (· == .negation)
  let reply := (primary c.skipNegations).widen c.skipNegations_rest_length_le
  if signs.length % 2 = 0 then reply
  else ⟨{ reply.val with outcome := reply.val.outcome.bind Branch.negate }, reply.property⟩

/-- Sums of products of signed primaries. -/
def expression (primary : Reader) : Reader :=
  chain Operator.add.precedence (chain Operator.multiply.precedence (signed primary))

/-- A group whose opening parenthesis is taken: one more group is open until the inner
expression ends, and then it has to be closed. -/
def group (inner : Reader) : Reader := fun c =>
  match inner { c with depth := c.depth + 1 } with
  | ⟨⟨.error fault, next⟩, notLonger⟩ => ⟨⟨.error fault, next⟩, notLonger⟩
  | ⟨⟨.ok branch, next⟩, notLonger⟩ =>
    let closing := { next with depth := next.depth - 1 }
    let reply : Reply closing :=
      match next.rest with
      | [] => .stay closing (.error .unclosedGroup)
      | .closeParen :: _ => .advance closing (.ok branch)
      | token :: _ => .advance closing (.error (.missingOperator token))
    reply.widen notLonger

/-- A literal, or a group read after its opening parenthesis. Every other token is taken and
refused. -/
def atom (group : Reader) : Reader := fun c =>
  match c.rest with
  | [] => .stay c (.error .missingOperandAtEnd)
  | .literal text :: _ => .advance c ((readOperand text).map Branch.number)
  | .openParen :: _ => (group c.advance).widen c.advance_rest_length_le
  | .closeParen :: _ =>
    if c.depth = 0 then .advance c (.error (.unmatchedClose c.position))
    else .advance c (.error (.missingOperand ')'))
  | .operator op :: _ => .advance c (.error (.missingOperand op.glyph))
  | .negation :: _ => .advance c (.error (.missingOperand Operator.subtract.glyph))

/-- A primary in which at most `groups` groups may be nested. These and the groups that are open
make up the limit: they do so at the beginning of a whole expression, and inside a group there is
one more open and one less to nest. -/
def primary : (groups : Nat) → Reader
  | 0 => atom fun c => .stay c (.error (.tooDeep maxGroups))
  | groups + 1 => atom (group (expression (primary groups)))

theorem atom_of_openParen {inside : Reader} {c : Cursor} {rest : List Token}
    (h : c.rest = .openParen :: rest) : (atom inside c).val = (inside c.advance).val := by
  rw [atom]
  split <;> simp_all [Reply.widen]

/-- So a group is refused exactly where the depth has reached the limit. -/
theorem primary_of_openParen {groups : Nat} {c : Cursor} {rest : List Token}
    (hgroups : c.depth + groups = maxGroups) (h : c.rest = .openParen :: rest) :
    (primary groups c).val =
      if c.depth = maxGroups then ⟨.error (.tooDeep maxGroups), c.advance⟩
      else (group (expression (primary (groups - 1))) c.advance).val := by
  cases groups with
  | zero =>
    rw [if_pos (by simpa using hgroups)]
    exact atom_of_openParen h
  | succ groups =>
    rw [if_neg (by omega)]
    exact atom_of_openParen h

end Reader

/-- Reads one whole expression from the cursor on. The whole token list is checked for
balance each time; nothing is taken when it fails that or is empty. -/
def Expression.parseFrom (tokens : List Token) (c : Cursor) :
    Except Fault Expression × Cursor :=
  match parenthesisFault tokens with
  | some fault => (.error fault, c)
  | none =>
    if tokens.isEmpty then (.error .emptyExpression, c)
    else
      let ⟨outcome, next⟩ := (Reader.expression (Reader.primary (maxGroups - c.depth)) c).val
      let whole := do
        let branch ← outcome
        match next.rest with
        | [] => .ok branch.tree
        | .closeParen :: _ => .error (.unmatchedClose next.position)
        | token :: _ => .error (.missingOperator token)
      (whole, next)

def Expression.ofTokens (tokens : List Token) : Except Fault Expression :=
  (parseFrom tokens (Cursor.start tokens)).1

/-- The tree of a typed expression. -/
def Expression.parse (text : List Char) : Except Fault Expression :=
  ofTokens (Token.scan text)

end PocketCalculator
