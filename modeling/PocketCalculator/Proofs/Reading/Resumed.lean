import Mathlib.Logic.Relation
import PocketCalculator.Proofs.Evaluation.Parentheses
import PocketCalculator.Proofs.Reading.Steady

/-!
# Reading again

Reading can be resumed at the cursor that an earlier reading left, also when it failed inside
of groups, which then stay open. However often that is done, the cursor stays within the
tokens and within the limit on open groups, also in the calls that the readers make of one
another.
-/
namespace PocketCalculator

open Relation

/-! ## Calls of readers -/

/-- The reader of a category, in which at most `groups` groups may be nested. -/
def Category.reader (groups : Nat) : Category → Reader
  | .expression => Reader.expression (Reader.primary groups)
  | .term => Reader.chain Operator.multiply.precedence (Reader.signed (Reader.primary groups))
  | .unary => Reader.signed (Reader.primary groups)
  | .primary => Reader.primary groups

theorem Category.steady_reader (groups : Nat) (category : Category) :
    (category.reader groups).Steady groups := by
  have hprimary := Reader.steady_primary groups
  cases category with
  | expression => exact hprimary.expression
  | term => exact hprimary.signed.chain
  | unary => exact hprimary.signed
  | primary => exact hprimary

/-- A reader and the cursor where it starts. -/
structure Call where
  category : Category
  groups : Nat
  cursor : Cursor

namespace Call

/-- The call that reads a whole expression. -/
def whole (c : Cursor) : Call := ⟨.expression, maxGroups - c.depth, c⟩

def reading (k : Call) : Reading := (k.category.reader k.groups k.cursor).val

/-- The calls that a reader makes while it reads: one for each of the operands that it joins,
one for the primary after negations, and one for the expression inside a group. -/
inductive Makes : Call → Call → Prop
  | first {outer inner : Category} {groups : Nat} {c : Cursor} : Folds outer inner →
      Makes ⟨outer, groups, c⟩ ⟨inner, groups, c⟩
  | next {outer inner : Category} {groups : Nat} {c : Cursor} {k : Call} {b : Branch}
      {token : Token} {rest : List Token} {x : Terminal} {op : Operator} :
      Makes ⟨outer, groups, c⟩ k → k.reading.outcome = .ok b →
      k.reading.cursor.rest = token :: rest → token.terminal = .ok x → Joins outer x op inner →
      Makes ⟨outer, groups, c⟩ ⟨inner, k.groups, k.reading.cursor.advance⟩
  | signed {groups : Nat} {c : Cursor} :
      Makes ⟨.unary, groups, c⟩ ⟨.primary, groups, c.skipNegations⟩
  | group {groups : Nat} {c : Cursor} {rest : List Token} : c.rest = .openParen :: rest →
      Makes ⟨.primary, groups + 1, c⟩
        ⟨.expression, groups, { c.advance with depth := c.depth + 1 }⟩

/-- At an opening parenthesis a call fails if no more groups may be open. Else it has the
inside of the group read with one more group open, and closes that one if this succeeds. -/
def GuardsGroup (k : Call) : Prop :=
  if k.cursor.depth = maxGroups then
    k.reading = ⟨.error (.tooDeep maxGroups), k.cursor.advance⟩
  else
    ∃ inner, k.Makes inner ∧ inner.cursor.depth = k.cursor.depth + 1 ∧
      (∀ fault, inner.reading.outcome = .error fault → k.reading = inner.reading) ∧
      ∀ b, inner.reading.outcome = .ok b →
        inner.reading.cursor.depth = k.cursor.depth + 1 ∧
        k.reading = Reader.closeGroup b
          { inner.reading.cursor with depth := inner.reading.cursor.depth - 1 }

/-- A call leaves as many groups open as there were, or no fewer if it fails, and the limit is
kept in every case. -/
structure Safe (k : Call) : Prop where
  depth_add_groups : k.cursor.depth + k.groups = maxGroups
  depth_eq : ∀ b, k.reading.outcome = .ok b → k.reading.cursor.depth = k.cursor.depth
  le_depth : k.cursor.depth ≤ k.reading.cursor.depth
  depth_le : k.reading.cursor.depth ≤ maxGroups
  guardsGroup : k.category = .primary → k.cursor.rest.head? = some .openParen → k.GuardsGroup

variable {k inner : Call}

theorem kept_reading (k : Call) : Kept k.groups k.cursor k.reading :=
  (k.category.steady_reader k.groups).kept k.cursor

/-- A group that is opened is counted against those that may still be nested. -/
theorem Makes.depth_add_groups (h : k.Makes inner) :
    inner.cursor.depth + inner.groups = k.cursor.depth + k.groups := by
  induction h with
  | first => rfl
  | @next outer inner groups c k b token rest x op _ hread _ _ _ ih =>
    rw [← ih, ← k.kept_reading.depth_eq b hread, Cursor.depth_advance]
  | signed => rfl
  | group => exact Nat.add_right_comm _ 1 _

/-- A primary fails as the expression inside its group does, or has the group closed after it. -/
theorem reading_of_group (groups : Nat) {c : Cursor} {rest : List Token}
    (hrest : c.rest = .openParen :: rest) :
    let inside := (Call.mk .expression groups { c.advance with depth := c.depth + 1 }).reading
    let whole := (Call.mk .primary (groups + 1) c).reading
    (∀ fault, inside.outcome = .error fault → whole = inside) ∧
      ∀ b, inside.outcome = .ok b →
        whole = Reader.closeGroup b { inside.cursor with depth := inside.cursor.depth - 1 } := by
  intro inside whole
  have hatom : whole = (Reader.group (Reader.expression (Reader.primary groups)) c.advance).val :=
    Reader.atom_of_openParen hrest
  have hinside : (Reader.expression (Reader.primary groups)
      { c.advance with depth := c.advance.depth + 1 }).val = inside := by
    rw [c.depth_advance]
    rfl
  rw [hatom, Reader.group_val, hinside]
  generalize inside = r
  obtain ⟨outcome, next⟩ := r
  cases outcome with
  | error fault => exact ⟨fun _ _ => rfl, nofun⟩
  | ok branch =>
    refine ⟨nofun, fun b hb => ?_⟩
    cases hb
    rfl

theorem guardsGroup (hgroups : k.cursor.depth + k.groups = maxGroups)
    (hcategory : k.category = .primary) (hopen : k.cursor.rest.head? = some .openParen) :
    k.GuardsGroup := by
  obtain ⟨category, groups, c⟩ := k
  dsimp only at hgroups hcategory hopen
  subst hcategory
  obtain ⟨rest, hrest⟩ := List.head?_eq_some_iff.mp hopen
  unfold GuardsGroup
  by_cases hdepth : c.depth = maxGroups
  · rw [if_pos hdepth]
    exact (Reader.primary_of_openParen hgroups hrest).trans (if_pos hdepth)
  · rw [if_neg hdepth]
    obtain ⟨groups, rfl⟩ : ∃ g, groups = g + 1 := Nat.exists_eq_succ_of_ne_zero (by omega)
    obtain ⟨hfails, hcloses⟩ := reading_of_group groups hrest
    refine ⟨_, .group hrest, rfl, hfails, fun b hread => ⟨?_, hcloses b hread⟩⟩
    exact (Call.mk .expression groups { c.advance with depth := c.depth + 1 }).kept_reading.depth_eq
      b hread

theorem safe (hgroups : k.cursor.depth + k.groups = maxGroups) : k.Safe where
  depth_add_groups := hgroups
  depth_eq := k.kept_reading.depth_eq
  le_depth := k.kept_reading.le_depth
  depth_le := hgroups ▸ k.kept_reading.depth_le
  guardsGroup := guardsGroup hgroups

theorem safe_whole {c : Cursor} (h : c.depth ≤ maxGroups) : (whole c).Safe :=
  safe (Nat.add_sub_cancel' h)

theorem Safe.of_calls (h : k.Safe) (hcalls : ReflTransGen Makes k inner) : inner.Safe := by
  induction hcalls with
  | refl => exact h
  | tail _ hmakes ih => exact safe (hmakes.depth_add_groups.trans ih.depth_add_groups)

end Call

/-! ## Reading the whole expression again -/

theorem kind_of_parenthesisFault_go {index opened : Nat} {tokens : List Token} {fault : Fault}
    (h : parenthesisFault.go index opened tokens = some fault) :
    fault.kind = .malformedParentheses := by
  fun_induction parenthesisFault.go index opened tokens with
  | case1 => cases h
  | case2 =>
    cases h
    rfl
  | case3 _ _ _ ih => exact ih h
  | case4 =>
    cases h
    rfl
  | case5 _ _ _ _ ih => exact ih h
  | case6 _ _ _ _ _ _ ih => exact ih h

namespace Expression

/-- Where reading stands after the whole expression has been read `n` times. -/
def cursorAfter (tokens : List Token) : Nat → Cursor
  | 0 => .start tokens
  | n + 1 => (parseFrom tokens (cursorAfter tokens n)).2

/-- What reading the whole expression gives after it has been read `n` times. -/
def answer (tokens : List Token) (n : Nat) : Except Fault Expression :=
  (parseFrom tokens (cursorAfter tokens n)).1

variable {tokens : List Token} {c : Cursor}

theorem cursor_of_parseFrom (hb : Token.brackets.Balanced tokens) (hne : tokens ≠ [])
    (c : Cursor) : (parseFrom tokens c).2 = (Call.whole c).reading.cursor := by
  rw [parseFrom_of_balanced hb hne]
  rfl

theorem rest_of_parseFrom (hb : Token.brackets.Balanced tokens) (hne : tokens ≠ [])
    {t : Expression} (h : (parseFrom tokens c).1 = .ok t) : (parseFrom tokens c).2.rest = [] := by
  obtain ⟨-, -, hend, -⟩ := parseFrom_eq_ok hb hne h
  rw [parseFrom_of_balanced hb hne]
  exact hend

theorem parseFrom_at_end (hb : Token.brackets.Balanced tokens) (hne : tokens ≠ [])
    (hend : c.rest = []) : parseFrom tokens c = (.error .missingOperandAtEnd, c) := by
  have hreading := (Reader.steady_primary (maxGroups - c.depth)).expression.at_end c hend
  rw [parseFrom_of_balanced hb hne, hreading]
  rfl

/-- The cursor does not move, or it moves as a reading of a whole expression leaves it. -/
theorem parseFrom_cursor (tokens : List Token) (c : Cursor) :
    (parseFrom tokens c).2 = c ∨ (parseFrom tokens c).2 = (Call.whole c).reading.cursor := by
  cases hfault : parenthesisFault tokens with
  | some fault =>
    rw [parseFrom_of_parenthesisFault hfault]
    exact Or.inl rfl
  | none =>
    by_cases hne : tokens = []
    · subst hne
      exact Or.inl rfl
    · exact Or.inr (cursor_of_parseFrom (parenthesisFault_eq_none.mp hfault) hne c)

/-- What holds of the cursor however often reading is resumed. -/
structure Stands (tokens : List Token) (c : Cursor) : Prop where
  leadsTo : (Cursor.start tokens).LeadsTo c
  depth_le : c.depth ≤ maxGroups

theorem Stands.parseFrom (h : Stands tokens c) :
    Stands tokens (parseFrom tokens c).2 ∧ c.LeadsTo (Expression.parseFrom tokens c).2 := by
  rcases parseFrom_cursor tokens c with hsame | hmoved
  · rw [hsame]
    exact ⟨h, .refl c⟩
  · have hleads : c.LeadsTo (Call.whole c).reading.cursor := (Call.whole c).kept_reading.leadsTo
    rw [hmoved]
    exact ⟨⟨h.leadsTo.trans hleads, (Call.safe_whole h.depth_le).depth_le⟩, hleads⟩

theorem stands_cursorAfter (tokens : List Token) (n : Nat) : Stands tokens (cursorAfter tokens n) := by
  induction n with
  | zero => exact ⟨.refl _, Nat.zero_le _⟩
  | succ n ih => exact ih.parseFrom.1

theorem Stands.position_le (h : Stands tokens c) : c.position ≤ tokens.length := by
  obtain ⟨taken, hrest, hposition⟩ := h.leadsTo
  have hlength := congrArg List.length hrest
  simp only [Cursor.start, List.length_append, Nat.zero_add] at hlength hposition
  omega

theorem Stands.rest_eq (h : Stands tokens c) : c.rest = tokens.drop c.position := by
  obtain ⟨taken, hrest, hposition⟩ := h.leadsTo
  simp only [Cursor.start, Nat.zero_add] at hrest hposition
  rw [hrest, hposition, List.drop_left]

theorem Stands.rest_eq_nil (h : Stands tokens c) : c.rest = [] ↔ c.position = tokens.length := by
  rw [h.rest_eq, List.drop_eq_nil_iff]
  exact ⟨h.position_le.antisymm, Eq.ge⟩

theorem cursorAfter_of_at_end (hb : Token.brackets.Balanced tokens) (hne : tokens ≠ [])
    {m n : Nat} (hend : (cursorAfter tokens n).rest = []) (hle : n ≤ m) :
    cursorAfter tokens m = cursorAfter tokens n := by
  induction m, hle using Nat.le_induction with
  | base => rfl
  | succ m _ ih => rw [cursorAfter, ih, parseFrom_at_end hb hne hend]

/-- However often reading is resumed, the cursor goes on within the tokens and the limit on
open groups, in every call of a reader. Unbalanced tokens are always refused for the same
reason. Of balanced ones some are taken each time before the end, and an expression is read at
most once, up to the end, where nothing more can be read. -/
theorem resumed_readings (text : List Char) :
    let tokens := Token.scan text
    (∀ n, Stands tokens (cursorAfter tokens n) ∧
      (cursorAfter tokens n).position ≤ (cursorAfter tokens (n + 1)).position ∧
      (cursorAfter tokens n).position ≤ tokens.length ∧
      (cursorAfter tokens n).rest = tokens.drop (cursorAfter tokens n).position ∧
      ∀ k, ReflTransGen Call.Makes (.whole (cursorAfter tokens n)) k → k.Safe) ∧
    (¬Token.brackets.Balanced tokens → ∃ fault, fault.kind = .malformedParentheses ∧
      ∀ n, answer tokens n = .error fault ∧ cursorAfter tokens n = .start tokens) ∧
    (Token.brackets.Balanced tokens → tokens ≠ [] →
      (∀ n, (cursorAfter tokens n).position < tokens.length →
        (cursorAfter tokens n).position < (cursorAfter tokens (n + 1)).position) ∧
      (∀ n t, answer tokens n = .ok t → ∀ m, n < m →
        (cursorAfter tokens m).position = tokens.length ∧
        answer tokens m = .error .missingOperandAtEnd) ∧
      ∀ m n t u, answer tokens m = .ok t → answer tokens n = .ok u → m = n) ∧
    Fault.missingOperandAtEnd.detail = "missing operand at end of expression".toList := by
  intro tokens
  have hstands := stands_cursorAfter tokens
  refine ⟨fun n => ⟨hstands n, (hstands n).parseFrom.2.position_le, (hstands n).position_le,
    (hstands n).rest_eq, fun k => (Call.safe_whole (hstands n).depth_le).of_calls⟩, ?_, ?_, rfl⟩
  · intro hunbalanced
    rw [← parenthesisFault_eq_none] at hunbalanced
    obtain ⟨fault, hfault⟩ := Option.ne_none_iff_exists'.mp hunbalanced
    have hstays : ∀ n, cursorAfter tokens n = .start tokens := by
      intro n
      induction n with
      | zero => rfl
      | succ n ih => rw [cursorAfter, parseFrom_of_parenthesisFault hfault, ih]
    refine ⟨fault, kind_of_parenthesisFault_go hfault, fun n => ⟨?_, hstays n⟩⟩
    rw [answer, parseFrom_of_parenthesisFault hfault]
  · intro hb hne
    have hlater : ∀ n t, answer tokens n = .ok t → ∀ m, n < m →
        (cursorAfter tokens m).position = tokens.length ∧
          answer tokens m = .error .missingOperandAtEnd := by
      intro n t ht m hm
      have hend : (cursorAfter tokens (n + 1)).rest = [] := rest_of_parseFrom hb hne ht
      have hsame := cursorAfter_of_at_end hb hne hend hm
      refine ⟨?_, ?_⟩
      · rw [hsame]
        exact (hstands (n + 1)).rest_eq_nil.mp hend
      · rw [answer, hsame, parseFrom_at_end hb hne hend]
    refine ⟨fun n hn => ?_, hlater, fun m n t u ht hu => ?_⟩
    · have hrest : (cursorAfter tokens n).rest ≠ [] :=
        fun hnil => hn.ne ((hstands n).rest_eq_nil.mp hnil)
      have hsteady := Reader.steady_primary (maxGroups - (cursorAfter tokens n).depth)
      rw [cursorAfter, cursor_of_parseFrom hb hne]
      exact hsteady.expression.takes _ hrest
    · rcases Nat.lt_trichotomy m n with hlt | heq | hlt
      · rw [(hlater m t ht n hlt).2] at hu
        cases hu
      · exact heq
      · rw [(hlater n u hu m hlt).2] at ht
        cases ht

/-- The third reading of `(2+)3` gives a tree with the group still open, and is the last that
does. -/
theorem resumed_readings_inside_group :
    (answer (Token.scan ['(', '2', '+', ')', '3']) 2).isOk = true ∧
      (cursorAfter (Token.scan ['(', '2', '+', ')', '3']) 3).depth = 1 ∧
      ∀ m, 2 < m →
        answer (Token.scan ['(', '2', '+', ')', '3']) m = .error .missingOperandAtEnd := by
  have hbalanced : Token.brackets.Balanced (Token.scan ['(', '2', '+', ')', '3']) :=
    parenthesisFault_eq_none.mp (by decide +kernel)
  have hok : (answer (Token.scan ['(', '2', '+', ')', '3']) 2).isOk = true := by decide +kernel
  obtain ⟨-, -, hread, -⟩ := resumed_readings ['(', '2', '+', ')', '3']
  obtain ⟨-, hlater, -⟩ := hread hbalanced (by decide +kernel)
  refine ⟨hok, by decide +kernel, fun m hm => ?_⟩
  cases hanswer : answer (Token.scan ['(', '2', '+', ')', '3']) 2 with
  | error fault =>
    rw [hanswer] at hok
    cases hok
  | ok t => exact (hlater 2 t hanswer m hm).2

end Expression

end PocketCalculator
