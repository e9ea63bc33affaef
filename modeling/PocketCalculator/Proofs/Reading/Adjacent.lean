import PocketCalculator.Proofs.Reading.Offending

/-!
# What stands before an operand and after it

Where a reader starts no value stands before the cursor, and where it has succeeded one does. The
scanner decides about a minus sign and about a group by the token before. So a minus sign that is
a subtraction is never met where an operand has to begin, a negation joins two operands only after
a group, and what follows a value without an operator is a literal.
-/
namespace PocketCalculator

open Relation

/-! ## The token before the cursor -/

/-- The cursor stands in the tokens, after a value or not. -/
def Cursor.StandsIn (c : Cursor) (tokens : List Token) (afterValue : Bool) : Prop :=
  ∃ before, tokens = before ++ c.rest ∧ c.position = before.length ∧
    before.getLast?.any Token.endsValue = afterValue

section StandsIn

variable {c d : Cursor} {tokens taken rest : List Token} {token : Token} {afterValue : Bool}

theorem Cursor.standsIn_start (tokens : List Token) : (start tokens).StandsIn tokens false :=
  ⟨[], rfl, rfl, rfl⟩

/-- After more tokens it is the last of these that counts. -/
theorem Cursor.StandsIn.of_taken (h : c.StandsIn tokens afterValue)
    (hrest : c.rest = taken ++ token :: d.rest)
    (hposition : d.position = c.position + (taken.length + 1)) :
    d.StandsIn tokens token.endsValue := by
  obtain ⟨before, rfl, hbefore, -⟩ := h
  refine ⟨before ++ (taken ++ [token]), by simp [hrest], ?_, by simp⟩
  rw [hposition, hbefore]
  simp

theorem Cursor.StandsIn.advance (h : c.StandsIn tokens afterValue) (hrest : c.rest = token :: rest) :
    c.advance.StandsIn tokens token.endsValue := by
  have hsplit : c.rest = [] ++ token :: c.advance.rest := by
    rw [advance_of_cons hrest]
    exact hrest
  exact h.of_taken hsplit (position_advance hrest)

theorem Cursor.StandsIn.skipNegations (h : c.StandsIn tokens false) :
    c.skipNegations.StandsIn tokens false := by
  have hall : ∀ token ∈ c.rest.takeWhile (· == .negation), token = Token.negation :=
    fun token ht => by simpa using List.mem_takeWhile_imp ht
  have hrest : c.rest = c.rest.takeWhile (· == .negation) ++ c.skipNegations.rest :=
    List.takeWhile_append_dropWhile.symm
  have hposition : c.skipNegations.position =
    c.position + (c.rest.takeWhile (· == .negation)).length := rfl
  generalize c.rest.takeWhile (· == .negation) = signs at hall hrest hposition
  induction signs using List.reverseRecOn with
  | nil =>
    obtain ⟨before, htokens, hbefore, hlast⟩ := h
    exact ⟨before, htokens.trans (congrArg _ hrest), hposition.trans hbefore, hlast⟩
  | append_singleton signs token =>
    obtain rfl := hall token (by simp)
    rw [List.append_assoc, List.singleton_append] at hrest
    rw [List.length_append] at hposition
    have hstands := h.of_taken hrest hposition
    exact hstands

theorem Cursor.StandsIn.follows (h : c.StandsIn tokens afterValue)
    (htokens : Token.Scannable tokens) (hrest : c.rest = token :: rest) :
    ∃ before, tokens = before ++ token :: rest ∧ c.position = before.length ∧
      token.Follows before.getLast? ∧ before.getLast?.any Token.endsValue = afterValue := by
  obtain ⟨before, hsplit, hposition, hlast⟩ := h
  rw [hrest] at hsplit
  exact ⟨before, hsplit, hposition, htokens before token rest hsplit, hlast⟩

end StandsIn

/-! ## What may follow a value -/

namespace Token

variable {token : Token} {last : Option Token}

theorem endsValue_of_isLiteral (h : last.any isLiteral = true) : last.any endsValue = true := by
  cases last with
  | none => cases h
  | some token =>
    cases token with
    | literal text => rfl
    | _ => cases h

theorem Follows.ne_subtract (h : token.Follows last) (hlast : last.any endsValue = false) :
    token ≠ .operator .subtract := by
  rintro rfl
  rw [endsValue_of_isLiteral (h rfl)] at hlast
  cases hlast

theorem Follows.eq_closeParen (h : negation.Follows last) (hlast : last.any endsValue = true) :
    last = some .closeParen := by
  cases last with
  | none => cases hlast
  | some token =>
    cases token with
    | literal text => cases h
    | closeParen => rfl
    | _ => cases hlast

theorem Follows.ne_openParen (h : token.Follows last) (hlast : last.any endsValue = true) :
    token ≠ .openParen := by
  rintro rfl
  rw [Follows, hlast] at h
  cases h

end Token

/-- Every phrase ends in a number or in a group. -/
theorem Derives.exists_last {category : Category} {w : List Terminal} {t : Expression}
    (h : Derives category w t) :
    ∃ u x, w = u ++ [x] ∧ ∀ token : Token, token.terminal = .ok x → token.endsValue = true := by
  induction h with
  | number value =>
    refine ⟨[], _, rfl, fun token htoken => ?_⟩
    obtain ⟨text, rfl, -⟩ := Token.of_terminal htoken
    rfl
  | @group w t _ _ =>
    refine ⟨.openParen :: w, .closeParen, rfl, fun token htoken => ?_⟩
    rw [Token.of_terminal htoken]
    rfl
  | signed n _ ih =>
    obtain ⟨u, x, rfl, hx⟩ := ih
    exact ⟨_, x, (List.append_assoc _ u [x]).symm, hx⟩
  | unary _ ih => exact ih
  | term _ ih => exact ih
  | @join outer inner y op v w l r _ _ _ _ ih =>
    obtain ⟨u, x, rfl, hx⟩ := ih
    exact ⟨v ++ y :: u, x, by simp, hx⟩

theorem Category.sound_reader (groups : Nat) (category : Category) :
    (category.reader groups).Sound category groups := by
  have hunary := Reader.signed_sound (Reader.primary_sound groups)
  cases category with
  | expression => exact Reader.expression_sound (Reader.primary_sound groups)
  | term => exact Reader.chain_sound .term Reader.foldsFor_term hunary
  | unary => exact hunary
  | primary => exact Reader.primary_sound groups

namespace Call

variable {k inner : Call} {tokens : List Token} {token : Token} {fault : Fault}

/-- Where a call succeeds a value stands before the cursor. -/
theorem standsIn_reading {afterValue : Bool} {b : Branch}
    (h : k.cursor.StandsIn tokens afterValue) (hread : k.reading.outcome = .ok b) :
    k.reading.cursor.StandsIn tokens true := by
  obtain ⟨w, hmoves, hderives⟩ := k.category.sound_reader k.groups k.cursor b hread
  obtain ⟨u, x, rfl, hx⟩ := hderives.exists_last
  obtain ⟨taken, htaken, hrest⟩ := hmoves.taken
  obtain ⟨us, ws, rfl, hus, hws⟩ := htaken.append_inv
  obtain ⟨token, later, rfl, htoken, hlater⟩ := hws.cons_inv
  obtain rfl := List.forall₂_nil_right_iff.mp hlater
  rw [List.append_assoc, List.singleton_append] at hrest
  have hposition := hmoves.position
  rw [List.length_append, ← hus.length_eq] at hposition
  have hstands := h.of_taken hrest hposition
  rwa [hx token htoken] at hstands

/-- Whatever a call is made for, no value stands before it. -/
theorem Makes.standsIn (h : k.Makes inner) (hk : k.cursor.StandsIn tokens false) :
    inner.cursor.StandsIn tokens false := by
  induction h with
  | first => exact hk
  | @next outer category groups c k b token rest x op _ hread hrest hx hjoins ih =>
    have hoperator : token.endsValue = false := by
      rcases hjoins.eq_operator_or_negation with rfl | rfl <;>
        rw [Token.of_terminal hx] <;> rfl
    have hadvance := (standsIn_reading (ih hk) hread).advance hrest
    rwa [hoperator] at hadvance
  | signed => exact hk.skipNegations
  | group hrest => exact hk.advance hrest

theorem standsIn_of_calls (hk : k.cursor.StandsIn tokens false)
    (hcalls : ReflTransGen Makes k inner) : inner.cursor.StandsIn tokens false := by
  induction hcalls with
  | refl => exact hk
  | tail _ hmakes ih => exact hmakes.standsIn ih

/-- A primary is called only where the negations before it have been taken. -/
theorem Makes.not_negation (h : k.Makes inner) (hprimary : inner.category = .primary) :
    .negation ∉ inner.cursor.rest.head? := by
  cases h with
  | first hfolds =>
    cases hprimary
    cases hfolds
  | next _ _ _ _ hjoins =>
    cases hprimary
    cases hjoins
  | @signed groups c =>
    intro hhead
    have hnot := List.head?_dropWhile_not (· == Token.negation) c.rest
    rw [Cursor.skipNegations, Option.mem_def] at hhead
    rw [hhead] at hnot
    cases hnot
  | group => cases hprimary

/-- While the call reads, an operand ends at the cursor, and the token there joins it to the next
operand. -/
inductive TakesOperator (k : Call) (c : Cursor) (token : Token) : Prop
  | after {inner : Call} {b : Branch} {rest : List Token} {x : Terminal} {op : Operator}
      {category : Category} : k.Makes inner → inner.reading.outcome = .ok b →
      inner.reading.cursor = c → c.rest = token :: rest → token.terminal = .ok x →
      Joins k.category x op category → TakesOperator k c token

/-! ## Where faults arise -/

/-- A primary that fails though the calls it makes succeed. -/
structure Raises (k : Call) (fault : Fault) : Prop where
  category : k.category = .primary
  outcome : k.reading.outcome = .error fault
  calls : ∀ inner, k.Makes inner → ∃ b, inner.reading.outcome = .ok b

/-- Where the call fails it is for the height of the tree, or a primary that it leads to raises
the fault. -/
def Traces (k : Call) : Prop :=
  ∀ fault, k.reading.outcome = .error fault → fault = .tooDeep Expression.maxHeight ∨
    ∃ inner, ReflTransGen Makes k inner ∧ inner.Raises fault

theorem Traces.of_makes (h : inner.Traces) (hmakes : k.Makes inner)
    (hfault : inner.reading.outcome = .error fault) :
    fault = .tooDeep Expression.maxHeight ∨
      ∃ last, ReflTransGen Makes k last ∧ last.Raises fault :=
  (h fault hfault).imp_right fun ⟨last, hcalls, hraises⟩ => ⟨last, .head hmakes hcalls, hraises⟩

variable {groups : Nat} {c : Cursor}

theorem Makes.of_primary (h : (Call.mk .primary groups c).Makes inner) :
    ∃ g rest, groups = g + 1 ∧ c.rest = .openParen :: rest ∧
      inner = ⟨.expression, g, { c.advance with depth := c.depth + 1 }⟩ := by
  cases h with
  | first hfolds => cases hfolds
  | next _ _ _ _ hjoins => cases hjoins
  | group hrest => exact ⟨_, _, rfl, hrest, rfl⟩

theorem traces_primary (hinner : ∀ inner, (Call.mk .primary groups c).Makes inner → inner.Traces) :
    (Call.mk .primary groups c).Traces := by
  intro fault h
  by_cases hcalls : ∀ inner, (Call.mk .primary groups c).Makes inner →
      ∃ b, inner.reading.outcome = .ok b
  · exact Or.inr ⟨_, .refl, rfl, h, hcalls⟩
  · simp only [not_forall, not_exists] at hcalls
    obtain ⟨inner, hmakes, hfails⟩ := hcalls
    refine (hinner inner hmakes).of_makes hmakes ?_
    obtain ⟨g, rest, rfl, hrest, rfl⟩ := hmakes.of_primary
    cases hread : (Call.mk .expression g
        { c.advance with depth := c.depth + 1 }).reading.outcome with
    | error fault' =>
      rw [(reading_of_group _ hrest).1 fault' hread] at h
      exact hread.symm.trans h
    | ok b => exact absurd hread (hfails b)

theorem traces_unary (hprimary : ∀ c, (Call.mk .primary groups c).Traces) :
    (Call.mk .unary groups c).Traces := by
  intro fault h
  have hmakes : (Call.mk .unary groups c).Makes ⟨.primary, groups, c.skipNegations⟩ := .signed
  have htraces : (Call.mk .primary groups c.skipNegations).reading.outcome = .error fault → _ :=
    (hprimary c.skipNegations).of_makes hmakes
  rw [reading, Category.reader, Reader.signed_val] at h
  split at h
  · exact htraces h
  · rcases Reader.bind_eq_error h with hread | ⟨b, -, hnegate⟩
    · exact htraces hread
    · exact Or.inl (Reader.fault_of_negate hnegate)

theorem traces_chain {precedence : Nat} {outer operand : Category} (hfolds : Folds outer operand)
    (hop : Reader.FoldsFor precedence outer operand)
    (hreader : outer.reader groups = Reader.chain precedence (operand.reader groups))
    (hoperand : ∀ c, (Call.mk operand groups c).Traces) : (Call.mk outer groups c).Traces := by
  intro fault h
  have hmakes : (Call.mk outer groups c).Makes ⟨operand, groups, c⟩ := .first hfolds
  rw [reading, hreader, Reader.chain_val] at h
  cases hl : (operand.reader groups c).val.outcome with
  | error fault' =>
    rw [hl] at h
    obtain rfl : fault' = fault := by simpa using h
    exact (hoperand c).of_makes hmakes hl
  | ok left =>
    rw [hl] at h
    -- The fold stands where some call for an operand has succeeded.
    refine Reader.fold_induction (motive := fun _ d r => ∀ k b, k.groups = groups →
      (Call.mk outer groups c).Makes k → k.reading.outcome = .ok b → k.reading.cursor = d →
      r.outcome = .error fault → fault = .tooDeep Expression.maxHeight ∨
        ∃ last, ReflTransGen Makes (Call.mk outer groups c) last ∧ last.Raises fault)
      ?stop ?fail ?next left _ _ left rfl hmakes hl rfl h
    case stop =>
      intro left d _ k b _ _ _ _ h
      cases h
    case fail =>
      intro left d token rest op fault' hr hop' hj k b hgroups hmakes hread hcursor h
      obtain rfl : fault' = fault := by simpa using h
      subst hgroups hcursor
      obtain ⟨x, hx, hjoins⟩ := (hop token op).mp hop'
      rcases Reader.bind_eq_error hj with hfails | ⟨right, -, hjoin⟩
      · exact (hoperand _).of_makes (.next hmakes hread hr hx hjoins) hfails
      · exact Or.inl (Reader.fault_of_join hjoin)
    case next =>
      intro left d token rest op joined r hr hop' hj ih k b hgroups hmakes hread hcursor hfault
      subst hgroups hcursor
      obtain ⟨x, hx, hjoins⟩ := (hop token op).mp hop'
      obtain ⟨right, hright, -⟩ := Reader.bind_eq_ok hj
      have hnext : (Call.mk outer k.groups c).Makes ⟨operand, k.groups, k.reading.cursor.advance⟩ :=
        .next hmakes hread hr hx hjoins
      exact ih ⟨operand, k.groups, k.reading.cursor.advance⟩ right rfl hnext hright rfl hfault

theorem traces_of_primary (hprimary : ∀ c, (Call.mk .primary groups c).Traces) (category : Category)
    (c : Cursor) : (Call.mk category groups c).Traces := by
  have hunary : ∀ c, (Call.mk .unary groups c).Traces := fun _ => traces_unary hprimary
  have hterm : ∀ c, (Call.mk .term groups c).Traces :=
    fun _ => traces_chain .term Reader.foldsFor_term rfl hunary
  cases category with
  | expression => exact traces_chain .expression Reader.foldsFor_expression rfl hterm
  | term => exact hterm c
  | unary => exact hunary c
  | primary => exact hprimary c

theorem traces (k : Call) : k.Traces := by
  obtain ⟨category, groups, c⟩ := k
  induction groups generalizing category c with
  | zero =>
    refine traces_of_primary (fun c => traces_primary fun inner hmakes => ?_) category c
    obtain ⟨g, rest, hgroups, -⟩ := hmakes.of_primary
    cases hgroups
  | succ groups ih =>
    refine traces_of_primary (fun c => traces_primary fun inner hmakes => ?_) category c
    obtain ⟨g, rest, hgroups, -, rfl⟩ := hmakes.of_primary
    cases hgroups
    exact ih _ _

/-! ## Which faults arise -/

/-- What follows an expression other than the end of its group is a literal. -/
theorem isLiteral_of_standsIn {rest : List Token} (hstands : c.StandsIn tokens true)
    (htokens : Token.Scannable tokens) (hrest : c.rest = token :: rest)
    (hafter : Reader.AfterExpression (token :: rest)) (hclose : token ≠ .closeParen) :
    token.isLiteral = true := by
  obtain ⟨before, -, -, hfollows, hvalue⟩ := hstands.follows htokens hrest
  have hnext := hafter.next hclose 0
  cases token with
  | literal text => rfl
  | operator op => cases hnext
  | negation => cases hnext
  | openParen => exact absurd rfl (hfollows.ne_openParen hvalue)
  | closeParen => exact absurd rfl hclose

end Call

theorem Operator.glyph_injective : Function.Injective Operator.glyph :=
  fun op op' h => Option.some.inj (by rw [← ofGlyph?_glyph op, h, ofGlyph?_glyph op'])

/-- No operand is missing before a minus sign, and an operator only before a literal. -/
structure Fault.OfScanned (fault : Fault) : Prop where
  operand : fault ≠ .missingOperand Operator.subtract.glyph
  operator : ∀ token, fault = .missingOperator token → token.isLiteral = true

theorem Fault.OfScanned.of_not_isMissing {fault : Fault} (h : fault.isMissing = false) :
    fault.OfScanned := by
  constructor
  · rintro rfl
    cases h
  · rintro token rfl
    cases h

theorem Fault.OfScanned.missingOperator {token : Token} (h : token.isLiteral = true) :
    (Fault.missingOperator token).OfScanned where
  operand := nofun
  operator _ heq := Fault.missingOperator.inj heq ▸ h

theorem Fault.OfScanned.missingOperand {glyph : Char} (h : glyph ≠ Operator.subtract.glyph) :
    (Fault.missingOperand glyph).OfScanned where
  operand heq := h (Fault.missingOperand.inj heq)
  operator := nofun

namespace Call

variable {k : Call} {tokens : List Token} {fault : Fault}

theorem ofScanned_of_closeGroup {b : Branch} {c : Cursor} {depth : Nat}
    (hstands : c.StandsIn tokens true) (htokens : Token.Scannable tokens)
    (hafter : Reader.AfterExpression c.rest)
    (h : (Reader.closeGroup b { c with depth := depth }).outcome = .error fault) :
    fault.OfScanned := by
  unfold Reader.closeGroup at h
  split at h
  · cases h
    exact .of_not_isMissing rfl
  · cases h
  · rename_i token rest hclose hrest
    cases h
    rw [hrest] at hafter
    exact .missingOperator
      (isLiteral_of_standsIn hstands htokens hrest hafter hclose)

theorem Raises.ofScanned_of_group {groups : Nat} {c : Cursor} {rest : List Token}
    (h : (Call.mk .primary groups c).Raises fault) (hrest : c.rest = .openParen :: rest)
    (hstands : c.StandsIn tokens false) (htokens : Token.Scannable tokens) : fault.OfScanned := by
  have houtcome := h.outcome
  cases groups with
  | zero =>
    have hlimit : (Call.mk .primary 0 c).reading.outcome = .error (.tooDeep maxGroups) :=
      congrArg Reading.outcome (Reader.atom_of_openParen hrest)
    rw [hlimit] at houtcome
    cases houtcome
    exact .of_not_isMissing rfl
  | succ groups =>
    -- The expression inside succeeds, so what fails is the closing of the group after its value.
    have hmakes : (Call.mk .primary (groups + 1) c).Makes _ := .group hrest
    obtain ⟨b, hread⟩ := h.calls _ hmakes
    have hvalue := standsIn_reading (hmakes.standsIn hstands) hread
    have hafter := Reader.expression_leaves (Reader.primary groups) _ b hread
    rw [(reading_of_group _ hrest).2 b hread] at houtcome
    exact ofScanned_of_closeGroup hvalue htokens hafter houtcome

theorem exists_reading_eq_atom (groups : Nat) (c : Cursor) :
    ∃ inside, (Call.mk .primary groups c).reading = (Reader.atom inside c).val := by
  cases groups with
  | zero => exact ⟨_, rfl⟩
  | succ groups => exact ⟨_, rfl⟩

/-- What a primary raises where no value stands before it. -/
theorem Raises.ofScanned (h : k.Raises fault) (hstands : k.cursor.StandsIn tokens false)
    (htokens : Token.Scannable tokens) (hnegation : .negation ∉ k.cursor.rest.head?) :
    fault.OfScanned := by
  obtain ⟨category, groups, c⟩ := k
  have hcategory := h.category
  dsimp only at hcategory hstands hnegation
  subst hcategory
  have houtcome := h.outcome
  obtain ⟨inside, hreading⟩ := exists_reading_eq_atom groups c
  -- A primary decides by the next token alone, unless that opens a group.
  cases hrest : c.rest with
  | nil =>
    rw [hreading, Reader.atom_of_nil hrest] at houtcome
    cases houtcome
    exact ⟨nofun, nofun⟩
  | cons token rest =>
    cases token with
    | literal text =>
      rw [hreading, Reader.atom_of_literal hrest] at houtcome
      cases hread : readOperand text with
      | error fault' =>
        rw [hread] at houtcome
        cases houtcome
        rcases fault_of_readOperand hread with ⟨x, rfl⟩ | rfl | rfl <;>
          exact .of_not_isMissing rfl
      | ok value =>
        rw [hread] at houtcome
        cases houtcome
    | operator op =>
      rw [hreading, Reader.atom_of_operator hrest] at houtcome
      cases houtcome
      obtain ⟨before, -, -, hfollows, hvalue⟩ := hstands.follows htokens hrest
      refine .missingOperand fun hglyph => hfollows.ne_subtract hvalue ?_
      rw [Operator.glyph_injective hglyph]
    | negation =>
      rw [hrest] at hnegation
      exact absurd rfl hnegation
    | openParen => exact h.ofScanned_of_group hrest hstands htokens
    | closeParen =>
      rw [hreading, Reader.atom_of_closeParen hrest] at houtcome
      cases houtcome
      split
      · exact .of_not_isMissing rfl
      · exact .missingOperand (by decide)

theorem ofScanned_of_whole (htokens : Token.Scannable tokens)
    (h : (whole (.start tokens)).reading.outcome = .error fault) : fault.OfScanned := by
  rcases traces _ fault h with rfl | ⟨last, hcalls, hraises⟩
  · exact .of_not_isMissing rfl
  · refine hraises.ofScanned (standsIn_of_calls (Cursor.standsIn_start tokens) hcalls) htokens ?_
    rcases hcalls.cases_tail with rfl | ⟨before, -, hmakes⟩
    · cases hraises.category
    · exact hmakes.not_negation hraises.category

end Call

theorem Expression.ofScanned_of_ofTokens {tokens : List Token} {fault : Fault}
    (htokens : Token.Scannable tokens) (h : ofTokens tokens = .error fault) :
    fault.OfScanned := by
  rcases ofTokens_eq_error_cases h with
    hnot | ⟨-, hread | ⟨branch, token, rest, hread, hrest, hclose, rfl⟩⟩
  · exact .of_not_isMissing hnot
  · exact Call.ofScanned_of_whole htokens hread
  · have hstands := Call.standsIn_reading (k := Call.whole (.start tokens))
      (Cursor.standsIn_start tokens) hread
    have hafter : Reader.AfterExpression (Call.whole (.start tokens)).reading.cursor.rest :=
      Reader.expression_leaves (Reader.primary maxGroups) _ branch hread
    rw [hrest] at hafter
    exact .missingOperator (Call.isLiteral_of_standsIn hstands htokens hrest hafter hclose)

/-! ## What the texts of the faults say -/

namespace Fault

variable {fault : Fault} {shown : List Char}

/-- Only what is missing is described by a text that begins with this letter. -/
theorem isMissing_of_detail (h : fault.detail.head? = some 'm') : fault.isMissing = true := by
  have hdigits (n : Nat) : (Nat.toDigits 10 n).head? ≠ some 'm' := fun hhead =>
    absurd (Nat.isDigit_of_mem_toDigits (by decide) (by decide) (List.mem_of_mem_head? hhead))
      (by decide)
  unfold detail at h
  cases fault with
  | missingOperator => rfl
  | missingOperandAtEnd => rfl
  | missingOperand => rfl
  | unclosedGroups count =>
    rw [List.head?_append_of_ne_nil _ Nat.toDigits_ne_nil] at h
    exact absurd h (hdigits count)
  | tooDeep limit => exact absurd h (hdigits limit)
  | _ => cases h

theorem missing_texts_ne (u v : List Char) :
    "missing operator before ".toList ++ u ≠ "missing operand before ".toList ++ v := by
  rw [String.toList_ofList, String.toList_ofList]
  nofun

theorem eq_missingOperand_of_detail {c : Char}
    (h : fault.detail = "missing operand before ".toList ++ quoted [c]) :
    fault = .missingOperand c := by
  have hmissing : fault.isMissing = true := isMissing_of_detail (by rw [h]; rfl)
  unfold detail at h
  cases fault with
  | missingOperand before =>
    have hquoted : quoted [before] = quoted [c] := List.append_cancel_left h
    have hcs : [before] = [c] := List.append_cancel_left (List.append_cancel_right hquoted)
    cases hcs
    rfl
  | missingOperator before => exact absurd h (missing_texts_ne _ _)
  | missingOperandAtEnd =>
    dsimp only at h
    rw [String.toList_ofList, String.toList_ofList] at h
    cases h
  | _ => cases hmissing

theorem eq_missingOperator_of_detail
    (h : fault.detail = "missing operator before ".toList ++ quoted shown) :
    ∃ token, fault = .missingOperator token ∧ token.text = shown := by
  have hmissing : fault.isMissing = true := isMissing_of_detail (by rw [h]; rfl)
  unfold detail at h
  cases fault with
  | missingOperator before =>
    have hquoted : quoted before.text = quoted shown := List.append_cancel_left h
    exact ⟨before, rfl, List.append_cancel_left (List.append_cancel_right hquoted)⟩
  | missingOperand before => exact absurd h.symm (missing_texts_ne _ _)
  | missingOperandAtEnd =>
    dsimp only at h
    rw [String.toList_ofList, String.toList_ofList] at h
    cases h
  | _ => cases hmissing

end Fault

/-- Two operands are joined by a negation only where a group is closed before it. Where an operand
begins there is no subtraction, and after its signs no negation, so that none is missing before a
minus sign. An operator is missing only before a literal. -/
theorem minus_signs_are_read_by_the_token_before (text : List Char) :
    let tokens := Token.scan text
    (∀ k, ReflTransGen Call.Makes (.whole (.start tokens)) k →
      (∀ c, k.TakesOperator c .negation → ∃ before after,
        tokens = before ++ .closeParen :: .negation :: after ∧ c.position = before.length + 1) ∧
      .operator .subtract ∉ k.cursor.rest.head? ∧
      (k.category = .primary → .negation ∉ k.cursor.rest.head?)) ∧
    ∀ fault, Expression.parse text = .error fault →
      fault.detail ≠ "missing operand before '-'".toList ∧
      ∀ shown, fault.detail = "missing operator before ".toList ++ Fault.quoted shown →
        fault = .missingOperator (.literal shown) := by
  intro tokens
  have htokens := Token.scannable_scan text
  refine ⟨fun k hcalls => ⟨fun c htakes => ?_, fun hhead => ?_, fun hprimary => ?_⟩,
    fun fault hfault => ?_⟩
  · have hstart := Call.standsIn_of_calls (Cursor.standsIn_start tokens) hcalls
    obtain @⟨_, _, rest, _, _, _, hmakes, hread, rfl, hrest, -, -⟩ := htakes
    have hstands := Call.standsIn_reading (hmakes.standsIn hstart) hread
    obtain ⟨before, hsplit, hposition, hfollows, hvalue⟩ := hstands.follows htokens hrest
    have hlast := hfollows.eq_closeParen hvalue
    obtain ⟨front, rfl⟩ := List.getLast?_eq_some_iff.mp hlast
    refine ⟨front, rest, ?_, ?_⟩
    · rw [hsplit, List.append_assoc, List.singleton_append]
    · rw [hposition, List.length_append, List.length_singleton]
  · have hstands := Call.standsIn_of_calls (Cursor.standsIn_start tokens) hcalls
    obtain ⟨rest, hrest⟩ := List.head?_eq_some_iff.mp hhead
    obtain ⟨before, -, -, hfollows, hvalue⟩ := hstands.follows htokens hrest
    exact hfollows.ne_subtract hvalue rfl
  · rcases hcalls.cases_tail with rfl | ⟨outer, -, hmakes⟩
    · cases hprimary
    · exact hmakes.not_negation hprimary
  · have hscanned := Expression.ofScanned_of_ofTokens htokens hfault
    refine ⟨fun hdetail => ?_, fun shown hdetail => ?_⟩
    · exact hscanned.operand (Fault.eq_missingOperand_of_detail hdetail)
    · obtain ⟨token, rfl, rfl⟩ := Fault.eq_missingOperator_of_detail hdetail
      have hliteral := hscanned.operator token rfl
      cases token with
      | literal text => rfl
      | _ => cases hliteral

end PocketCalculator
