import PocketCalculator.Proofs.Scanning.Joined

/-!
# Spellings of operators

An operator may be typed with other characters than the one it is shown with. The scanner does
not tell these apart, so a text has the same tokens in every spelling.
-/
namespace PocketCalculator

/-- The character that an operator is shown with, for any that it is typed with. Every other
character stays. -/
def Operator.spell (c : Char) : Char :=
  match ofGlyph? c with
  | some op => op.glyph
  | none => c

variable {c : Char}

namespace Operator

theorem spell_of_operator {op : Operator} (h : ofGlyph? c = some op) : spell c = op.glyph := by
  rw [spell, h]

theorem spell_of_other (h : ofGlyph? c = none) : spell c = c := by
  rw [spell, h]

theorem ofGlyph?_spell (c : Char) : ofGlyph? (spell c) = ofGlyph? c := by
  cases h : ofGlyph? c with
  | some op => rw [spell_of_operator h, ofGlyph?_glyph]
  | none => rw [spell_of_other h, h]

theorem spell_spell (c : Char) : spell (spell c) = spell c := by
  cases h : ofGlyph? c with
  | some op => rw [spell_of_operator h, spell_of_operator (ofGlyph?_glyph op)]
  | none => rw [spell_of_other h, spell_of_other h]

theorem isDigit_spell (c : Char) : (spell c).isDigit = c.isDigit := by
  cases h : ofGlyph? c with
  | some op =>
    rw [spell_of_operator h, not_isDigit_of_ofGlyph? h, not_isDigit_of_ofGlyph? (ofGlyph?_glyph op)]
  | none => rw [spell_of_other h]

end Operator

open Operator

namespace Scanner

theorem step_spell (s : Scanner) (c : Char) (next : Option Char) :
    s.step (spell c) next = s.step c next := by
  cases h : ofGlyph? c with
  | some op => rw [step_operator h, step_operator ((ofGlyph?_spell c).trans h)]
  | none => rw [spell_of_other h]

theorem run_map_spell (s : Scanner) (text : List Char) : s.run (text.map spell) = s.run text := by
  induction text generalizing s with
  | nil => rfl
  | cons c rest ih =>
    have hnext : (rest.map spell).head?.any Char.isDigit = rest.head?.any Char.isDigit := by
      cases rest with
      | nil => rfl
      | cons d rest => exact isDigit_spell d
    rw [List.map_cons, run, run, step_spell, step_congr s c hnext, ih]

end Scanner

/-- The spelling of the operators does not change the tokens. -/
theorem Token.scan_map_spell (text : List Char) : scan (text.map spell) = scan text := by
  rw [scan, Scanner.run_map_spell, scan]

end PocketCalculator
