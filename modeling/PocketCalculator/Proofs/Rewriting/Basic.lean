import Mathlib.Logic.Relation
import PocketCalculator.Evaluation
import PocketCalculator.Proofs.Grammar

/-!
# Rewriting an expression in place

Another way to evaluate: as long as there are parentheses, some group without parentheses in
it is reduced to a value that takes its place, and then the whole is reduced in the same way.
In a flat body the negations are applied first. Then the leftmost operator of the highest
precedence present is applied to the values next to it until one value is left.
-/
namespace PocketCalculator.Rewriting

def IsFlat (w : List Terminal) : Prop := .openParen ∉ w ∧ .closeParen ∉ w

/-- Applies each run of negations to the number after it by parity. Directly after a value a
negation subtracts. -/
def applySigns (afterValue odd : Bool) : List Terminal → List Terminal
  | [] => []
  | .negation :: w =>
    if afterValue then .operator .subtract :: applySigns false false w
    else applySigns false (!odd) w
  | .number v :: w => .number (if odd then v.neg else v) :: applySigns true false w
  | x :: w => x :: applySigns false false w

def operator? : Terminal → Option Operator
  | .operator op => some op
  | _ => none

def operators (w : List Terminal) : List Operator := w.filterMap operator?

/-- The highest precedence among the operators present. -/
def tightest (w : List Terminal) : Nat :=
  ((operators w).map Operator.precedence).foldr max 0

/-- Applies the first operator of the given precedence to the numbers next to it. -/
def applyFirst (s : Settings) (precedence : Nat) : List Terminal → Except Fault (List Terminal)
  | .number a :: .operator op :: w =>
    if op.precedence = precedence then
      match w with
      | .number b :: after => (s.calculate op a b).map fun v => .number v :: after
      | _ => .error .missingOperandAtEnd
    else (applyFirst s precedence w).map ([.number a, .operator op] ++ ·)
  | w => .ok w

/-- Applies the leftmost of the tightest operators, as many times as said. -/
def collapse (s : Settings) : Nat → List Terminal → Except Fault (List Terminal)
  | 0, w => .ok w
  | count + 1, w => (applyFirst s (tightest w) w).bind (collapse s count)

/-- The value of a flat body. Each application removes one operator, so there are as many
applications as operators. -/
def reduceFlat (s : Settings) (body : List Terminal) : Except Fault Binary64 :=
  let w := applySigns false false body
  match collapse s (operators w).length w with
  | .ok [.number v] => .ok v
  | .ok _ => .error .missingOperandAtEnd
  | .error fault => .error fault

inductive State where
  | text (w : List Terminal)
  | halted (outcome : Except Fault Binary64)

/-- One step of rewriting. Any group without parentheses in it can be chosen; if it has no
value, neither has the whole. -/
inductive Step (s : Settings) : State → State → Prop
  | group {before body after : List Terminal} {v : Binary64} : IsFlat body →
      reduceFlat s body = .ok v →
      Step s (.text (before ++ .openParen :: (body ++ .closeParen :: after)))
        (.text (before ++ .number v :: after))
  | failure {before body after : List Terminal} {fault : Fault} : IsFlat body →
      reduceFlat s body = .error fault →
      Step s (.text (before ++ .openParen :: (body ++ .closeParen :: after)))
        (.halted (.error fault))
  | finish {w : List Terminal} : IsFlat w → Step s (.text w) (.halted (reduceFlat s w))

/-- Any number of steps, with any choices of groups. -/
abbrev Run (s : Settings) : State → State → Prop := Relation.ReflTransGen (Step s)

/-- The groups left in a text bound the steps left. -/
def State.size : State → Nat
  | text w => Terminal.brackets.opens w + 1
  | halted _ => 0

theorem Step.size_lt {s : Settings} {a b : State} (h : Step s a b) : b.size < a.size := by
  cases h with
  | @group before body after v hflat =>
    have hn := Brackets.opens_cons_other (b := Terminal.brackets) (x := .number v) (w := after)
      (by simp [Terminal.brackets])
    have ho := Brackets.opens_opening Terminal.brackets (body ++ .closeParen :: after)
    have hc := Brackets.opens_closing Terminal.brackets after
    simp only [Terminal.brackets] at hn ho hc
    simp only [State.size, Terminal.brackets, Brackets.opens_append] at hn ho hc ⊢
    omega
  | failure => exact Nat.succ_pos _
  | finish => exact Nat.succ_pos _

/-- Every run is finite. -/
theorem step_wellFounded (s : Settings) : WellFounded fun after before => Step s before after :=
  Subrelation.wf Step.size_lt (measure State.size).wf

end PocketCalculator.Rewriting
