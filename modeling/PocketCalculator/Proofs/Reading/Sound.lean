import Mathlib.Data.List.TakeWhile
import PocketCalculator.Proofs.Grammar
import PocketCalculator.Proofs.Reading.Equations

/-!
# Readings are derivations

What a reader takes when it succeeds is a phrase of its category, nests no deeper than the
reader allows, and leaves as many groups open as there were.
-/
namespace PocketCalculator

open Brackets

/-- From one cursor to another the terminals `w` are taken, which nest within `groups`, and
as many groups are open as before. -/
structure Moves (groups : Nat) (c : Cursor) (w : List Terminal) (next : Cursor) : Prop where
  taken : ∃ tokens, Reads tokens w ∧ c.rest = tokens ++ next.rest
  position : next.position = c.position + w.length
  depth : next.depth = c.depth
  nests : Terminal.brackets.NestsWithin groups w

theorem Moves.trans {groups : Nat} {c d e : Cursor} {u w : List Terminal}
    (hu : Moves groups c u d) (hb : Terminal.brackets.Balanced u) (hw : Moves groups d w e) :
    Moves groups c (u ++ w) e := by
  obtain ⟨us, hus, hcu⟩ := hu.taken
  obtain ⟨ws, hws, hdw⟩ := hw.taken
  refine ⟨⟨us ++ ws, List.rel_append hus hws, by rw [hcu, hdw, List.append_assoc]⟩, ?_,
    hw.depth.trans hu.depth, (nestsWithin_append hb).mpr ⟨hu.nests, hw.nests⟩⟩
  rw [hw.position, hu.position, List.length_append, Nat.add_assoc]

theorem Cursor.advance_of_cons {c : Cursor} {token : Token} {rest : List Token}
    (h : c.rest = token :: rest) : c.advance = ⟨rest, c.position + 1, c.depth⟩ := by
  simp [advance, h]

theorem Moves.advance {groups : Nat} {c : Cursor} {token : Token} {rest : List Token}
    {x : Terminal} (h : c.rest = token :: rest) (hx : token.terminal = .ok x)
    (ho : x ≠ .openParen) (hc : x ≠ .closeParen) : Moves groups c [x] c.advance := by
  rw [Cursor.advance_of_cons h]
  exact ⟨⟨[token], .cons hx .nil, h⟩, rfl, rfl, (nestsWithin_other ho hc).mpr nestsWithin_nil⟩

theorem Moves.skipNegations (groups : Nat) (c : Cursor) :
    Moves groups c
      (List.replicate (c.rest.takeWhile (· == .negation)).length .negation)
      c.skipNegations := by
  have hall : c.rest.takeWhile (· == .negation) =
      List.replicate (c.rest.takeWhile (· == .negation)).length .negation := by
    rw [List.eq_replicate_iff]
    exact ⟨rfl, fun x hx => by simpa using List.mem_takeWhile_imp hx⟩
  refine ⟨⟨c.rest.takeWhile (· == .negation), ?_, ?_⟩, by simp [Cursor.skipNegations], rfl, ?_⟩
  · conv_lhs => rw [hall]
    exact reads_replicate rfl _
  · exact List.takeWhile_append_dropWhile.symm
  · generalize (c.rest.takeWhile (· == .negation)).length = n
    induction n with
    | zero => exact nestsWithin_nil
    | succ n ih =>
      exact (nestsWithin_other (by simp [Terminal.brackets]) (by simp [Terminal.brackets])).mpr ih

/-- A successful reading takes a phrase of the category that denotes the tree. -/
def Reader.Sound (category : Category) (groups : Nat) (r : Reader) : Prop :=
  ∀ c b, (r c).val.outcome = .ok b →
    ∃ w, Moves groups c w (r c).val.cursor ∧ Derives category w b.tree

namespace Reader

/-- The operators of one precedence are those that join a phrase of the outer category to
one of the inner category. -/
def FoldsFor (precedence : Nat) (outer inner : Category) : Prop :=
  ∀ token op, operatorAt precedence token = some op ↔
    ∃ x, token.terminal = .ok x ∧ Joins outer x op inner

theorem operatorAt_eq_some {precedence : Nat} {token : Token} {op : Operator}
    (h : operatorAt precedence token = some op) :
    (token = .operator op ∨ token = .negation ∧ op = .subtract) ∧ op.precedence = precedence := by
  cases token <;> simp_all [operatorAt, Option.filter_eq_some_iff]

theorem foldsFor_expression : FoldsFor Operator.add.precedence .expression .term := by
  intro token op
  constructor
  · intro h
    obtain ⟨rfl | ⟨rfl, rfl⟩, hp⟩ := operatorAt_eq_some h
    · cases op with
      | add => exact ⟨_, rfl, .plus⟩
      | subtract => exact ⟨_, rfl, .minus⟩
      | multiply => cases hp
      | divide => cases hp
    · exact ⟨_, rfl, .negation⟩
  · rintro ⟨x, hx, hj⟩
    cases hj <;> cases Token.of_terminal hx <;> rfl

theorem foldsFor_term : FoldsFor Operator.multiply.precedence .term .unary := by
  intro token op
  constructor
  · intro h
    obtain ⟨rfl | ⟨rfl, rfl⟩, hp⟩ := operatorAt_eq_some h
    · cases op with
      | add => cases hp
      | subtract => cases hp
      | multiply => exact ⟨_, rfl, .times⟩
      | divide => exact ⟨_, rfl, .over⟩
    · cases hp
  · rintro ⟨x, hx, hj⟩
    cases hj <;> cases Token.of_terminal hx <;> rfl

theorem tree_of_join {op : Operator} {l r b : Branch} (h : Branch.join op l r = .ok b) :
    b.tree = .binary op l.tree r.tree := by
  unfold Branch.join at h
  split at h
  · cases h
    rfl
  · cases h

theorem tree_of_negate {b b' : Branch} (h : b.negate = .ok b') : b'.tree = .negate b.tree := by
  unfold Branch.negate at h
  split at h
  · cases h
    rfl
  · cases h

theorem bind_eq_ok {ε α β : Type} {x : Except ε α} {f : α → Except ε β} {b : β}
    (h : x.bind f = .ok b) : ∃ a, x = .ok a ∧ f a = .ok b := by
  cases x with
  | error e => cases h
  | ok a => exact ⟨a, rfl, h⟩

theorem bind_eq_error {ε α β : Type} {x : Except ε α} {f : α → Except ε β} {e : ε}
    (h : x.bind f = .error e) : x = .error e ∨ ∃ a, x = .ok a ∧ f a = .error e := by
  cases x with
  | error e' =>
    cases h
    exact Or.inl rfl
  | ok a => exact Or.inr ⟨a, rfl, h⟩

/-- The fold goes on from a phrase of the outer category that has been taken before it. -/
theorem fold_sound {precedence groups : Nat} {outer inner : Category} {operand : Reader}
    (hop : FoldsFor precedence outer inner) (ho : operand.Sound inner groups)
    {start c : Cursor} {left b : Branch} {u : List Terminal} (hm : Moves groups start u c)
    (hd : Derives outer u left.tree)
    (h : (fold precedence operand left c).val.outcome = .ok b) :
    ∃ w, Moves groups start w (fold precedence operand left c).val.cursor ∧
      Derives outer w b.tree := by
  refine fold_induction (motive := fun left c r => ∀ u, Moves groups start u c →
    Derives outer u left.tree → r.outcome = .ok b →
      ∃ w, Moves groups start w r.cursor ∧ Derives outer w b.tree) ?stop ?fail ?next left c u hm hd h
  case stop =>
    intro left c _ u hm hd h
    cases h
    exact ⟨u, hm, hd⟩
  case fail =>
    intro left c token rest op fault _ _ _ u _ _ h
    cases h
  case next =>
    intro left c token rest op joined r hr hop' hj ih u hm hd h
    obtain ⟨right, hright, hjoin⟩ := bind_eq_ok hj
    obtain ⟨x, hx, hjoins⟩ := (hop token op).mp hop'
    obtain ⟨w, hw, hdw⟩ := ho c.advance right hright
    have hadv : Moves groups c [x] c.advance :=
      .advance hr hx hjoins.ne_parens.1 hjoins.ne_parens.2
    have hx' : Terminal.brackets.Balanced [x] :=
      balanced_nil.cons_other hjoins.ne_parens.1 hjoins.ne_parens.2
    refine ih _ (hm.trans hd.balanced (hadv.trans hx' hw)) ?_ h
    rw [tree_of_join hjoin]
    exact .join hd hjoins hdw

theorem chain_sound {precedence groups : Nat} {outer inner : Category} {operand : Reader}
    (hf : Folds outer inner) (hop : FoldsFor precedence outer inner)
    (ho : operand.Sound inner groups) :
    (chain precedence operand).Sound outer groups := by
  intro c b h
  rw [chain_val] at h ⊢
  cases hl : (operand c).val.outcome with
  | error fault => simp [hl] at h
  | ok left =>
    simp only [hl] at h ⊢
    obtain ⟨w, hw, hd⟩ := ho c left hl
    exact fold_sound hop ho hw (hd.of_folds hf) h

theorem signed_sound {groups : Nat} {primary : Reader} (hp : primary.Sound .primary groups) :
    (signed primary).Sound .unary groups := by
  intro c b h
  rw [signed_val] at h ⊢
  have hm := Moves.skipNegations groups c
  generalize (c.rest.takeWhile (· == .negation)).length = n at h hm ⊢
  by_cases hn : n % 2 = 0
  · simp only [hn, ↓reduceIte] at h ⊢
    obtain ⟨w, hw, hd⟩ := hp c.skipNegations b h
    have hs := Derives.signed n hd
    rw [Expression.negateTimes, if_pos hn] at hs
    exact ⟨_, hm.trans (balanced_replicate_negation n) hw, hs⟩
  · simp only [hn, ↓reduceIte] at h ⊢
    obtain ⟨operand, hoperand, hnegate⟩ := bind_eq_ok h
    obtain ⟨w, hw, hd⟩ := hp c.skipNegations operand hoperand
    have hs := Derives.signed n hd
    rw [Expression.negateTimes, if_neg hn, ← tree_of_negate hnegate] at hs
    exact ⟨_, hm.trans (balanced_replicate_negation n) hw, hs⟩

theorem expression_sound {groups : Nat} {primary : Reader} (hp : primary.Sound .primary groups) :
    (expression primary).Sound .expression groups :=
  chain_sound .expression foldsFor_expression (chain_sound .term foldsFor_term (signed_sound hp))

theorem closeGroup_eq_ok {branch b : Branch} {closing : Cursor}
    (h : (closeGroup branch closing).outcome = .ok b) :
    ∃ rest, closing.rest = .closeParen :: rest ∧
      closeGroup branch closing = ⟨.ok branch, closing.advance⟩ := by
  unfold closeGroup at h ⊢
  split at h
  · cases h
  · rename_i rest hc
    exact ⟨rest, hc, rfl⟩
  · cases h

/-- Both parentheses are taken with what moves over the inside. -/
theorem moves_group {groups : Nat} {c next : Cursor} {rest after : List Token} {w : List Terminal}
    (hr : c.rest = .openParen :: rest) (hb : Terminal.brackets.Balanced w)
    (hw : Moves groups ⟨rest, c.position + 1, c.depth + 1⟩ w next)
    (hclose : next.rest = .closeParen :: after) :
    Moves (groups + 1) c (.openParen :: (w ++ [.closeParen]))
      ⟨after, next.position + 1, next.depth - 1⟩ where
  taken := by
    obtain ⟨tokens, ht, hrest⟩ := hw.taken
    dsimp only at hrest
    refine ⟨.openParen :: (tokens ++ [.closeParen]), ?_, ?_⟩
    · exact .cons rfl (List.rel_append ht (.cons rfl .nil))
    · rw [hr, hrest, hclose]
      simp
  position := by
    simp only [hw.position, List.length_cons, List.length_append, List.length_nil]
    omega
  depth := by
    simp only [hw.depth]
    omega
  nests := (nestsWithin_group hb).mpr hw.nests

/-- A group is read with its opening parenthesis just before it. -/
theorem group_sound {groups : Nat} {inner : Reader} (hi : inner.Sound .expression groups)
    {c : Cursor} {rest : List Token} (hr : c.rest = .openParen :: rest) {b : Branch}
    (h : (group inner c.advance).val.outcome = .ok b) :
    ∃ w, Moves (groups + 1) c (.openParen :: (w ++ [.closeParen]))
      (group inner c.advance).val.cursor ∧ Derives .expression w b.tree := by
  rw [group_val] at h ⊢
  rw [Cursor.advance_of_cons hr] at h ⊢
  have hs := hi ⟨rest, c.position + 1, c.depth + 1⟩
  cases hin : (inner ⟨rest, c.position + 1, c.depth + 1⟩).val with
  | mk outcome next =>
    cases outcome with
    | error fault => simp [hin] at h
    | ok branch =>
      obtain ⟨w, hw, hd⟩ := hs branch (by rw [hin])
      simp only [hin] at h hw ⊢
      obtain ⟨after, hafter, hclose⟩ := closeGroup_eq_ok h
      rw [hclose, Cursor.advance_of_cons hafter] at h ⊢
      cases h
      exact ⟨w, moves_group hr hd.balanced hw hafter, hd⟩

theorem atom_sound {groups : Nat} {inside : Reader}
    (hi : ∀ c b rest, c.rest = .openParen :: rest → (inside c.advance).val.outcome = .ok b →
      ∃ w, Moves groups c (.openParen :: (w ++ [.closeParen])) (inside c.advance).val.cursor ∧
        Derives .expression w b.tree) :
    (atom inside).Sound .primary groups := by
  intro c b h
  obtain ⟨tokens, position, depth⟩ := c
  cases tokens with
  | nil =>
    rw [atom_of_nil rfl] at h
    cases h
  | cons token rest =>
    by_cases ho : token = .openParen
    · subst ho
      rw [atom_of_openParen rfl] at h ⊢
      obtain ⟨w, hw, hd⟩ := hi _ b rest rfl h
      exact ⟨_, hw, .group hd⟩
    · cases hl : token.isLiteral with
      | false =>
        have hr : (⟨token :: rest, position, depth⟩ : Cursor).rest = token :: rest := rfl
        obtain ⟨fault, hf, _⟩ := atom_outcome_error inside hr hl ho
        rw [hf] at h
        cases h
      | true =>
        cases token with
        | literal text =>
          rw [atom_of_literal rfl] at h ⊢
          cases hread : readOperand text with
          | error fault => simp [hread, Except.map] at h
          | ok value =>
            simp only [hread, Except.map, Except.ok.injEq] at h
            subst h
            exact ⟨_, .advance rfl (by simp [Token.terminal, hread, Except.map]) (by simp)
              (by simp), .number value⟩
        | _ => cases hl

theorem primary_sound (groups : Nat) : (primary groups).Sound .primary groups := by
  induction groups with
  | zero =>
    refine atom_sound fun c b rest _ h => ?_
    cases h
  | succ groups ih =>
    exact atom_sound fun c b rest hr h => group_sound (expression_sound ih) hr h

end Reader

end PocketCalculator
