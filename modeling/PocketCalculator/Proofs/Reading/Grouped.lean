import PocketCalculator.Proofs.Reading.Phrases

/-!
# Expressions put together from groups

An expression that was read on its own is read as the same tree inside parentheses, whatever
stands before or after them. So the tree of a text made of groups is made of their trees, as
long as there is room for one more group around each and one more operation above them.
-/
namespace PocketCalculator

open Brackets Keypad

variable {s t : List Char} {a b : Expression}

namespace Phrase

variable {u w : List Char} {l r : Expression}

/-- A group after a value is a factor. -/
theorem juxtapose (hl : Phrase .term u l)
    (hvalue : (Token.scan u).getLast?.any Token.endsValue = true) (hr : Phrase .expression w r) :
    Phrase .term (u ++ '(' :: (w ++ [')'])) (.binary .multiply l r) := by
  obtain ⟨us, hus, hdl⟩ := hl
  obtain ⟨ws, hws, hdr⟩ := hr
  refine ⟨us ++ .operator .multiply :: .openParen :: (ws ++ [.closeParen]), ?_,
    .join hdl .times (.signed 0 (.group hdr))⟩
  rw [Token.scan_append_group hvalue, Token.scan_close]
  exact List.rel_append hus (.cons rfl (.cons rfl (List.rel_append hws (.cons rfl .nil))))

theorem balanced {k : Category} (h : Phrase k s a) : brackets.Balanced s := by
  obtain ⟨terminals, hreads, hd⟩ := h
  refine (balanced_scan_iff s).mp ?_
  exact (closesAll_iff_of_marks (matching_terminal.marks_eq hreads)).mpr hd.balanced

end Phrase

/-- The text is read as the tree, with room left for a group around it and a node above it. -/
structure ReadsWithRoom (text : List Char) (t : Expression) : Prop where
  parse_eq : Expression.parse text = .ok t
  nests : brackets.NestsWithin (maxGroups - 1) text
  height_lt : t.height < Expression.maxHeight

/-- The text in parentheses. -/
def inParentheses (text : List Char) : List Char := '(' :: (text ++ [')'])

namespace ReadsWithRoom

theorem phrase (h : ReadsWithRoom s a) : Phrase .expression s a :=
  (Expression.denotes_of_ofTokens h.parse_eq).1

theorem group (h : ReadsWithRoom s a) : Phrase .primary (inParentheses s) a := h.phrase.group

theorem balanced_group (h : ReadsWithRoom s a) : brackets.Balanced (inParentheses s) :=
  h.group.balanced

theorem nests_group (h : ReadsWithRoom s a) : brackets.NestsWithin maxGroups (inParentheses s) :=
  (nestsWithin_group h.phrase.balanced).mpr h.nests

theorem nests_groups (hs : ReadsWithRoom s a) (ht : ReadsWithRoom t b) (between : List Char)
    (hopen : '(' ∉ between) (hclose : ')' ∉ between) :
    brackets.NestsWithin maxGroups (inParentheses s ++ (between ++ inParentheses t)) := by
  have hbalanced : brackets.Balanced between := balanced_of_not_mem hopen hclose
  have hnests : brackets.NestsWithin maxGroups between := nestsWithin_of_not_mem hopen
  rw [nestsWithin_append hs.balanced_group, nestsWithin_append hbalanced]
  exact ⟨hs.nests_group, hnests, ht.nests_group⟩

theorem parse_inParentheses (h : ReadsWithRoom s a) :
    Expression.parse (inParentheses s) = .ok a :=
  (h.group.of_level_le (by decide)).parse_iff.mpr ⟨h.height_lt.le, h.nests_group⟩

theorem parse_negated (h : ReadsWithRoom s a) :
    Expression.parse ('-' :: inParentheses s) = .ok (.negate a) := by
  have hnegated : Phrase .expression ('-' :: inParentheses s) (.negate a) :=
    h.group.negate.of_level_le (by decide)
  refine hnegated.parse_iff.mpr ⟨h.height_lt, ?_⟩
  exact (nestsWithin_other (b := brackets) (by decide) (by decide)).mpr h.nests_group

/-- Both trees have a node less than is allowed, so an operation on them fits. -/
theorem height_binary_le (hs : ReadsWithRoom s a) (ht : ReadsWithRoom t b) (op : Operator) :
    (Expression.binary op a b).height ≤ Expression.maxHeight := by
  have hleft := hs.height_lt
  have hright := ht.height_lt
  rw [Expression.height]
  omega

theorem parse_joined (hs : ReadsWithRoom s a) (ht : ReadsWithRoom t b) {glyph : Char}
    {op : Operator} (hop : Operator.ofGlyph? glyph = some op) :
    Expression.parse (inParentheses s ++ glyph :: inParentheses t) = .ok (.binary op a b) := by
  have hleft : op.category.level ≤ Category.primary.level := by cases op <;> decide
  have hright : op.rightCategory.level ≤ Category.primary.level := by cases op <;> decide
  have hwhole : Category.expression.level ≤ op.category.level := by cases op <;> decide
  have hjoined := Phrase.join hop (hs.group.of_level_le hleft) (ht.group.of_level_le hright)
  refine (hjoined.of_level_le hwhole).parse_iff.mpr ⟨hs.height_binary_le ht op, ?_⟩
  have hglyph : ∀ c, Operator.ofGlyph? c = none → c ∉ [glyph] := by
    intro c hnone hc
    rw [List.mem_singleton.mp hc, hop] at hnone
    cases hnone
  exact hs.nests_groups ht [glyph] (hglyph '(' rfl) (hglyph ')' rfl)

theorem parse_juxtaposed (hs : ReadsWithRoom s a) (ht : ReadsWithRoom t b) :
    Expression.parse (inParentheses s ++ inParentheses t) = .ok (.binary .multiply a b) := by
  have hvalue : (Token.scan (inParentheses s)).getLast?.any Token.endsValue = true := by
    rw [inParentheses, Token.scan_group, ← List.cons_append, List.getLast?_concat]
    rfl
  have hproduct := (hs.group.of_level_le (by decide)).juxtapose hvalue ht.phrase
  refine (hproduct.of_level_le (by decide)).parse_iff.mpr ⟨hs.height_binary_le ht _, ?_⟩
  exact hs.nests_groups ht [] (by simp) (by simp)

end ReadsWithRoom

namespace Expression

/-- Whatever two texts are, the trees they are read as are the parts of the tree of any text put
together from them in parentheses, under a minus sign, around an operator or next to each other. -/
theorem parse_of_groups (hs : ReadsWithRoom s a) (ht : ReadsWithRoom t b) :
    parse (inParentheses s) = .ok a ∧
    parse ('-' :: inParentheses s) = .ok (.negate a) ∧
    (∀ glyph op, Operator.ofGlyph? glyph = some op →
      parse (inParentheses s ++ glyph :: inParentheses t) = .ok (.binary op a b)) ∧
    parse (inParentheses s ++ inParentheses t) = .ok (.binary .multiply a b) :=
  ⟨hs.parse_inParentheses, hs.parse_negated, fun _ _ hop => hs.parse_joined ht hop,
    hs.parse_juxtaposed ht⟩

/-- The minus sign after a group subtracts, although it is scanned as a negation. -/
theorem parse_of_groups_minus_after_group :
    let s := "1-2(3)".toList
    let t := "--4-5".toList
    let num (n : Nat) := number ((⟨n, 0⟩ : Decimal).toBinary64 false)
    let a := binary .subtract (num 1) (binary .multiply (num 2) (num 3))
    let b := binary .subtract (num 4) (num 5)
    (ReadsWithRoom s a ∧ ReadsWithRoom t b) ∧
      inParentheses s ++ '-' :: inParentheses t = "(1-2(3))-(--4-5)".toList ∧
      parse "(1-2(3))-(--4-5)".toList = .ok (.binary .subtract a b) ∧
      parse "(1-2(3))(--4-5)".toList = .ok (.binary .multiply a b) := by
  intro s t num a b
  have hs : ReadsWithRoom s a :=
    ⟨by decide +kernel, nestsWithin_of_length_le (by decide), by decide⟩
  have ht : ReadsWithRoom t b :=
    ⟨by decide +kernel, nestsWithin_of_length_le (by decide), by decide⟩
  obtain ⟨-, -, hjoined, hjuxtaposed⟩ := parse_of_groups hs ht
  exact ⟨⟨hs, ht⟩, rfl, hjoined '-' .subtract rfl, hjuxtaposed⟩

end Expression

end PocketCalculator
