import PocketCalculator.Proofs.Frontier
import PocketCalculator.Proofs.Reading.Resumed
import PocketCalculator.Proofs.Scanning.Range

/-!
# Where an operator or an operand is missing

A reader that finds a value or an operator missing has taken tokens that can still be completed
to an expression. The token that it names can follow them in no expression.
-/
namespace PocketCalculator

/-- The tokens form an expression, whatever their literals are. -/
def Grammatical (tokens : List Token) : Prop := IsExpression (tokens.map Token.shape)

/-- The fault names the token as the one before which something is missing. -/
def Fault.Names : Fault → Token → Prop
  | .missingOperator before, token => token = before
  | .missingOperand before, token => token.isLiteral = false ∧ token.typed = [before]
  | _, _ => False

/-- Whether an operator or an operand is missing. -/
def Fault.isMissing : Fault → Bool
  | .missingOperator _ | .missingOperand _ | .missingOperandAtEnd => true
  | _ => false

theorem Fault.isMissing_of_kind {fault : Fault} (h : fault.kind = .malformedParentheses) :
    fault.isMissing = false := by
  cases fault with
  | missingOperator | missingOperand | missingOperandAtEnd => cases h
  | _ => rfl

/-- If something is missing, the descent fails for it, or the expression is followed by a token
that it cannot go on with. -/
theorem Expression.ofTokens_eq_error_cases {tokens : List Token} {fault : Fault}
    (h : ofTokens tokens = .error fault) :
    let r := (Call.whole (.start tokens)).reading
    fault.isMissing = false ∨ (parseFrom tokens (.start tokens)).2 = r.cursor ∧
      (r.outcome = .error fault ∨ ∃ b token rest, r.outcome = .ok b ∧
        r.cursor.rest = token :: rest ∧ token ≠ .closeParen ∧ fault = .missingOperator token) := by
  intro r
  cases hparentheses : parenthesisFault tokens with
  | some fault' =>
    rw [ofTokens, parseFrom_of_parenthesisFault hparentheses] at h
    cases h
    exact Or.inl (Fault.isMissing_of_kind (kind_of_parenthesisFault_go hparentheses))
  | none =>
    by_cases hne : tokens = []
    · subst hne
      cases h
      exact Or.inl rfl
    have hb := parenthesisFault_eq_none.mp hparentheses
    have hcursor := cursor_of_parseFrom hb hne (.start tokens)
    rcases parseFrom_eq_error hb hne h with hread | ⟨b, token, rest, hread, hrest, hend⟩
    · exact Or.inr ⟨hcursor, Or.inl hread⟩
    · rcases hend with ⟨-, rfl⟩ | ⟨hclose, rfl⟩
      · exact Or.inl rfl
      · exact Or.inr ⟨hcursor, Or.inr ⟨b, token, rest, hread, hrest, hclose, rfl⟩⟩

/-! ## Reached frontiers -/

/-- From the cursor on operands, operators and parentheses are taken that lead up to the frontier,
and `rest` is left. -/
def Cursor.Reaches (c : Cursor) (f : Frontier) (rest : List Token) : Prop :=
  ∃ taken w, Reads taken w ∧ c.rest = taken ++ rest ∧ Frontier.run ⟨false, c.depth⟩ w = some f

/-- The end is reached where a value has to follow, or a token is reached that may not come next;
reading stops before or after that token. -/
inductive Arises (f : Frontier) : Fault → List Token → List Token → Prop
  | atEnd {stop : List Token} : f.afterValue = false → Arises f .missingOperandAtEnd [] stop
  | atToken {fault : Fault} {token : Token} {after stop : List Token} : fault.Names token →
      f.next token.shape = none → stop = token :: after ∨ stop = after →
      Arises f fault (token :: after) stop

/-- If something is missing, the cursor leads up to where that shows. -/
def Cursor.Locates (c : Cursor) (fault : Fault) (stop : List Token) : Prop :=
  fault.isMissing = true → ∃ f rest, c.Reaches f rest ∧ Arises f fault rest stop

section Reaches

variable {c d : Cursor} {f g : Frontier} {token : Token} {rest stop : List Token} {fault : Fault}

theorem Cursor.Reaches.refl (c : Cursor) : c.Reaches ⟨false, c.depth⟩ c.rest :=
  ⟨[], [], .nil, rfl, rfl⟩

theorem Cursor.Reaches.trans (h : c.Reaches ⟨false, d.depth⟩ d.rest) (h' : d.Reaches f rest) :
    c.Reaches f rest := by
  obtain ⟨us, u, hu, hc, hrun⟩ := h
  obtain ⟨ws, w, hw, hd, hrun'⟩ := h'
  refine ⟨us ++ ws, u ++ w, List.rel_append hu hw, by rw [hc, hd, List.append_assoc], ?_⟩
  rw [Frontier.run_append, hrun]
  exact hrun'

theorem Cursor.Reaches.next {x : Terminal} (h : c.Reaches f (token :: rest))
    (hx : token.terminal = .ok x) (hg : f.next x = some g) : c.Reaches g rest := by
  obtain ⟨taken, w, hw, hc, hrun⟩ := h
  refine ⟨taken ++ [token], w ++ [x], List.rel_append hw (.cons hx .nil), by simp [hc], ?_⟩
  rw [Frontier.run_append, hrun, Option.bind_some, Frontier.run_singleton, hg]

theorem Moves.reaches {groups : Nat} {category : Category} {w : List Terminal} {t : Expression}
    (hm : Moves groups c w d) (hd : Derives category w t) :
    c.Reaches ⟨true, c.depth⟩ d.rest := by
  obtain ⟨taken, htaken, hrest⟩ := hm.taken
  exact ⟨taken, w, htaken, hrest, Frontier.run_of_derives hd _⟩

theorem Cursor.reaches_skipNegations (c : Cursor) :
    c.Reaches ⟨false, c.skipNegations.depth⟩ c.skipNegations.rest := by
  obtain ⟨taken, htaken, hrest⟩ := (Moves.skipNegations 0 c).taken
  exact ⟨taken, _, htaken, hrest, Frontier.run_replicate_negation _ _⟩

theorem Cursor.Locates.of_reaches (hd : d.Locates fault stop)
    (h : c.Reaches ⟨false, d.depth⟩ d.rest) : c.Locates fault stop := by
  intro hmissing
  obtain ⟨f, rest, hf, harises⟩ := hd hmissing
  exact ⟨f, rest, h.trans hf, harises⟩

theorem Cursor.locates_of_not_isMissing (h : fault.isMissing = false) :
    c.Locates fault stop := by
  intro hmissing
  rw [h] at hmissing
  cases hmissing

theorem Cursor.locates_of_readOperand {literal : List Char}
    (h : readOperand literal = .error fault) : c.Locates fault stop := by
  rcases fault_of_readOperand h with ⟨x, rfl⟩ | rfl | rfl <;> exact locates_of_not_isMissing rfl

theorem Cursor.locates_tooDeep (c : Cursor) (stop : List Token) (limit : Nat) :
    c.Locates (.tooDeep limit) stop := locates_of_not_isMissing rfl

end Reaches

/-! ## What follows an expression -/

namespace Reader

/-- After a whole expression only a closing parenthesis may come next. -/
theorem AfterExpression.next {token : Token} {rest : List Token}
    (h : AfterExpression (token :: rest)) (hclose : token ≠ .closeParen) (opened : Nat) :
    Frontier.next ⟨true, opened⟩ token.shape = none := by
  have hmultiply := h.1 token rfl
  have hadd := h.2 token rfl
  cases token with
  | literal text => rfl
  | operator op =>
    cases op with
    | add | subtract => cases hadd
    | multiply | divide => cases hmultiply
  | negation => cases hadd
  | openParen => rfl
  | closeParen => exact absurd rfl hclose

/-- What a successful reading leaves. -/
def Leaves (stops : List Token → Prop) (r : Reader) : Prop :=
  ∀ c b, (r c).val.outcome = .ok b → stops (r c).val.cursor.rest

variable {precedence groups : Nat} {operand inner : Reader} {stops : List Token → Prop}

theorem fold_leaves (ho : operand.Leaves stops) {c : Cursor} {left b : Branch}
    (hc : stops c.rest) (h : (fold precedence operand left c).val.outcome = .ok b) :
    stops (fold precedence operand left c).val.cursor.rest ∧
      StopsAt precedence (fold precedence operand left c).val.cursor.rest := by
  refine fold_induction (motive := fun _ c r => stops c.rest → r.outcome = .ok b →
    stops r.cursor.rest ∧ StopsAt precedence r.cursor.rest) ?stop ?fail ?next left c hc h
  case stop => exact fun _ _ hstop hc _ => ⟨hc, hstop⟩
  case fail =>
    intro left c token rest op fault _ _ _ _ h
    cases h
  case next =>
    intro left c token rest op joined r _ _ hj ih _ h
    obtain ⟨right, hright, -⟩ := bind_eq_ok hj
    exact ih (ho _ _ hright) h

theorem chain_leaves (ho : operand.Leaves stops) :
    (chain precedence operand).Leaves fun rest => stops rest ∧ StopsAt precedence rest := by
  intro c b h
  rw [chain_val] at h ⊢
  cases hl : (operand c).val.outcome with
  | error fault =>
    rw [hl] at h
    cases h
  | ok left =>
    rw [hl] at h
    exact fold_leaves ho (ho c left hl) h

theorem expression_leaves (primary : Reader) : (expression primary).Leaves AfterExpression := by
  have hsigned : (signed primary).Leaves fun _ => True := fun _ _ _ => trivial
  intro c b h
  obtain ⟨⟨-, hmultiply⟩, hadd⟩ := chain_leaves (chain_leaves hsigned) c b h
  exact ⟨hmultiply, hadd⟩

/-! ## Readers locate what is missing -/

/-- A reader that fails on tokens which may start there locates what is missing. -/
def Locates (starts : List Token → Prop) (r : Reader) : Prop :=
  ∀ c fault, starts c.rest → (r c).val.outcome = .error fault →
    c.Locates fault (r c).val.cursor.rest

/-- The fold goes on after a value that the cursor `start` leads up to. -/
theorem fold_locates {outer inner : Category} (hop : FoldsFor precedence outer inner)
    (hs : operand.Sound inner groups) (ho : operand.Locates fun _ => True) {start c : Cursor}
    {left : Branch} {fault : Fault} (hreaches : start.Reaches ⟨true, start.depth⟩ c.rest)
    (hdepth : c.depth = start.depth)
    (h : (fold precedence operand left c).val.outcome = .error fault) :
    start.Locates fault (fold precedence operand left c).val.cursor.rest := by
  have hadvance : ∀ {c : Cursor} {token rest op}, c.rest = token :: rest →
      operatorAt precedence token = some op → start.Reaches ⟨true, start.depth⟩ c.rest →
      c.depth = start.depth → start.Reaches ⟨false, c.advance.depth⟩ c.advance.rest := by
    intro c token rest op hr hop' hreaches hdepth
    obtain ⟨x, hx, hjoins⟩ := (hop token op).mp hop'
    rw [Cursor.advance_of_cons hr, hdepth]
    rw [hr] at hreaches
    exact hreaches.next hx (Frontier.next_of_joins hjoins _)
  refine fold_induction (motive := fun _ c r => start.Reaches ⟨true, start.depth⟩ c.rest →
    c.depth = start.depth → r.outcome = .error fault → start.Locates fault r.cursor.rest)
    ?stop ?fail ?next left c hreaches hdepth h
  case stop =>
    intro left c _ _ _ h
    cases h
  case fail =>
    intro left c token rest op fault' hr hop' hj hreaches hdepth h
    obtain rfl : fault' = fault := by simpa using h
    rcases bind_eq_error hj with hoperand | ⟨right, -, hjoin⟩
    · exact (ho c.advance fault' trivial hoperand).of_reaches (hadvance hr hop' hreaches hdepth)
    · exact fault_of_join hjoin ▸ start.locates_tooDeep _ _
  case next =>
    intro left c token rest op joined r hr hop' hj ih hreaches hdepth h
    obtain ⟨right, hright, -⟩ := bind_eq_ok hj
    obtain ⟨w, hw, hd⟩ := hs c.advance right hright
    have hstart : c.advance.depth = start.depth := c.depth_advance.trans hdepth
    have hoperand := (hadvance hr hop' hreaches hdepth).trans (hw.reaches hd)
    rw [hstart] at hoperand
    exact ih hoperand (hw.depth.trans hstart) h

theorem chain_locates {outer inner : Category} (hop : FoldsFor precedence outer inner)
    (hs : operand.Sound inner groups) (ho : operand.Locates fun _ => True) :
    (chain precedence operand).Locates fun _ => True := by
  intro c fault _ h
  rw [chain_val] at h ⊢
  cases hl : (operand c).val.outcome with
  | error fault' =>
    rw [hl] at h
    obtain rfl : fault' = fault := by simpa using h
    exact ho c fault' trivial hl
  | ok left =>
    rw [hl] at h
    obtain ⟨w, hw, hd⟩ := hs c left hl
    exact fold_locates hop hs ho (hw.reaches hd) hw.depth h

theorem signed_locates {primary : Reader}
    (hp : primary.Locates fun rest => .negation ∉ rest.head?) :
    (signed primary).Locates fun _ => True := by
  intro c fault _ h
  have hstarts : Token.negation ∉ c.skipNegations.rest.head? := by
    intro hhead
    have hnot := List.head?_dropWhile_not (· == Token.negation) c.rest
    rw [Cursor.skipNegations] at hhead
    rw [Option.mem_def.mp hhead] at hnot
    cases hnot
  have hprimary : ∀ fault, (primary c.skipNegations).val.outcome = .error fault →
      c.Locates fault (primary c.skipNegations).val.cursor.rest := fun fault h =>
    (hp c.skipNegations fault hstarts h).of_reaches c.reaches_skipNegations
  rw [signed_val] at h ⊢
  split
  · rename_i heven
    rw [if_pos heven] at h
    exact hprimary fault h
  · rename_i hodd
    rw [if_neg hodd] at h
    rcases bind_eq_error h with houtcome | ⟨b, -, hnegate⟩
    · exact hprimary fault houtcome
    · exact fault_of_negate hnegate ▸ c.locates_tooDeep _ _

theorem expression_locates {primary : Reader} (hs : primary.Sound .primary groups)
    (hp : primary.Locates fun rest => .negation ∉ rest.head?) :
    (expression primary).Locates fun _ => True :=
  chain_locates foldsFor_expression (chain_sound .term foldsFor_term (signed_sound hs))
    (chain_locates foldsFor_term (signed_sound hs) (signed_locates hp))

/-- An expression in a group is followed by what may not come next if the group is not closed. -/
theorem group_locates (hs : inner.Sound .expression groups) (hl : inner.Leaves AfterExpression)
    (hi : inner.Locates fun _ => True) {c : Cursor} {fault : Fault}
    (h : (group inner c).val.outcome = .error fault) :
    Cursor.Locates { c with depth := c.depth + 1 } fault (group inner c).val.cursor.rest := by
  have hsound := hs { c with depth := c.depth + 1 }
  have hleaves := hl { c with depth := c.depth + 1 }
  have hlocates := hi { c with depth := c.depth + 1 }
  rw [group_val] at h ⊢
  cases hin : (inner { c with depth := c.depth + 1 }).val with
  | mk outcome next =>
    rw [hin] at h hsound hleaves hlocates
    cases outcome with
    | error fault' =>
      cases h
      exact hlocates fault trivial rfl
    | ok branch =>
      obtain ⟨w, hw, hd⟩ := hsound branch rfl
      have hreaches := hw.reaches hd
      have hafter := hleaves branch rfl
      dsimp only [closeGroup] at h hreaches hafter ⊢
      split at h
      · cases h
        exact Cursor.locates_of_not_isMissing rfl
      · cases h
      · rename_i token after hnot hrest
        cases h
        rw [hrest] at hreaches hafter
        have hadvance : Cursor.advance { next with depth := next.depth - 1 } = _ :=
          Cursor.advance_of_cons hrest
        rw [hadvance]
        exact fun _ => ⟨_, _, hreaches, .atToken rfl (hafter.next hnot _) (Or.inr rfl)⟩

theorem atom_locates {inside : Reader}
    (hi : ∀ c fault, (inside c).val.outcome = .error fault →
      Cursor.Locates { c with depth := c.depth + 1 } fault (inside c).val.cursor.rest) :
    (atom inside).Locates fun rest => .negation ∉ rest.head? := by
  intro c fault hstarts h
  have hreaches := Cursor.Reaches.refl c
  obtain ⟨tokens, position, depth⟩ := c
  cases tokens with
  | nil =>
    rw [atom_of_nil rfl] at h ⊢
    cases h
    exact fun _ => ⟨_, _, hreaches, .atEnd rfl⟩
  | cons token rest =>
    cases token with
    | literal text =>
      rw [atom_of_literal rfl] at h ⊢
      cases hread : readOperand text with
      | error fault' =>
        rw [hread] at h
        cases h
        exact Cursor.locates_of_readOperand hread
      | ok value =>
        rw [hread] at h
        cases h
    | operator op =>
      rw [atom_of_operator rfl, Cursor.advance_of_cons rfl] at h ⊢
      cases h
      exact fun _ => ⟨_, _, hreaches, .atToken ⟨rfl, rfl⟩ rfl (Or.inr rfl)⟩
    | negation => exact absurd rfl hstarts
    | openParen =>
      rw [atom_of_openParen rfl] at h ⊢
      refine (hi _ fault h).of_reaches ?_
      rw [Cursor.advance_of_cons rfl]
      exact hreaches.next rfl rfl
    | closeParen =>
      rw [atom_of_closeParen rfl, Cursor.advance_of_cons rfl] at h ⊢
      cases h
      split
      · exact Cursor.locates_of_not_isMissing rfl
      · exact fun _ => ⟨_, _, hreaches, .atToken ⟨rfl, rfl⟩ rfl (Or.inr rfl)⟩

theorem primary_locates (groups : Nat) :
    (primary groups).Locates fun rest => .negation ∉ rest.head? := by
  induction groups with
  | zero =>
    refine atom_locates fun c fault h => ?_
    cases h
    exact Cursor.locates_of_not_isMissing rfl
  | succ groups ih =>
    have hsound := primary_sound groups
    exact atom_locates fun c fault h => group_locates (expression_sound hsound)
      (expression_leaves _) (expression_locates hsound ih) h

end Reader

/-! ## The first offence -/

theorem Denotes.grammatical {tokens : List Token} {t : Expression} (h : Denotes tokens t) :
    Grammatical tokens := by
  obtain ⟨w, hw, hd⟩ := h
  rw [Grammatical, isExpression_iff_run, Frontier.run_shape hw, ← isExpression_iff_run]
  exact ⟨t, hd⟩

theorem Frontier.exists_reads_completion (f : Frontier) :
    ∃ later, Reads later f.completion ∧ (f.afterValue = false → later ≠ []) := by
  have hclose := reads_replicate (rfl : Token.closeParen.terminal = .ok .closeParen) f.opened
  have hzero : Token.terminal (.literal ['0']) = .ok (.number (.zero false)) := by decide +kernel
  rw [completion]
  cases f.afterValue with
  | true => exact ⟨_, hclose, by simp⟩
  | false => exact ⟨_, .cons hzero hclose, by simp⟩

/-- The tokens that have been taken can be completed, and if no value stands at their end only by
more tokens. -/
theorem Cursor.Reaches.exists_denotes {tokens rest : List Token} {f : Frontier}
    (h : (Cursor.start tokens).Reaches f rest) : ∃ taken, tokens = taken ++ rest ∧
      Frontier.start.run (taken.map Token.shape) = some f ∧
      ∃ later t, Denotes (taken ++ later) t ∧ (f.afterValue = false → later ≠ []) := by
  obtain ⟨taken, w, hw, hsplit, hrun⟩ := h
  obtain ⟨later, hlater, hne⟩ := f.exists_reads_completion
  obtain ⟨t, ht⟩ := isExpression_append_completion hrun
  exact ⟨taken, hsplit, (Frontier.run_shape hw _).trans hrun, later, t,
    ⟨_, List.rel_append hw hlater, ht⟩, hne⟩

/-- What precedes the token can be completed to an expression, and nothing that goes on with it
is one. The reading stops before or after the token. -/
structure FirstOffence (tokens : List Token) (token : Token) (before after : List Token) : Prop where
  split : tokens = before ++ token :: after
  stops : (Expression.parseFrom tokens (.start tokens)).2.rest = token :: after ∨
    (Expression.parseFrom tokens (.start tokens)).2.rest = after
  completes : ∃ later t, Denotes (before ++ later) t
  offends : ∀ later, ¬Grammatical (before ++ token :: later)

/-- Nothing that can be completed goes beyond the first offence. -/
theorem FirstOffence.eq_nil_of_completes {tokens before after more rest : List Token} {token : Token}
    (h : FirstOffence tokens token before after) (hmore : token :: after = more ++ rest)
    (hcompletes : ∃ later t, Denotes (before ++ more ++ later) t) : more = [] := by
  obtain ⟨later, t, ht⟩ := hcompletes
  cases more with
  | nil => rfl
  | cons x more =>
    obtain ⟨rfl, -⟩ := List.cons.inj hmore
    have hnot := h.offends (more ++ later)
    rw [← List.cons_append, ← List.append_assoc] at hnot
    exact absurd ht.grammatical hnot

theorem FirstOffence.unique {tokens before after before' after' : List Token}
    {token token' : Token} (h : FirstOffence tokens token before after)
    (h' : FirstOffence tokens token' before' after') :
    before = before' ∧ token = token' ∧ after = after' := by
  have hsplit := h.split.symm.trans h'.split
  have hbefore : before = before' := by
    rcases List.append_eq_append_iff.mp hsplit with ⟨more, rfl, hmore⟩ | ⟨more, rfl, hmore⟩
    · rw [h.eq_nil_of_completes hmore h'.completes, List.append_nil]
    · rw [h'.eq_nil_of_completes hmore h.completes, List.append_nil]
  subst hbefore
  exact ⟨rfl, List.cons.inj (List.append_cancel_left hsplit)⟩

/-- Where the descent fails, or goes on after the expression, it locates what is missing. -/
theorem Expression.locates_of_ofTokens {tokens : List Token} {fault : Fault}
    (h : ofTokens tokens = .error fault) :
    (Cursor.start tokens).Locates fault (parseFrom tokens (.start tokens)).2.rest := by
  have hsound := Reader.primary_sound maxGroups
  rcases ofTokens_eq_error_cases h with
    hnot | ⟨hcursor, hread | ⟨b, token, rest, hread, hrest, hclose, rfl⟩⟩
  · exact Cursor.locates_of_not_isMissing hnot
  · rw [hcursor]
    exact Reader.expression_locates hsound (Reader.primary_locates maxGroups) _ fault trivial hread
  · obtain ⟨w, hw, hd⟩ := Reader.expression_sound hsound _ b hread
    have hreaches : (Cursor.start tokens).Reaches _ (Call.whole (.start tokens)).reading.cursor.rest :=
      hw.reaches hd
    have hafter : Reader.AfterExpression (Call.whole (.start tokens)).reading.cursor.rest :=
      Reader.expression_leaves _ _ b hread
    rw [hrest] at hreaches hafter
    rw [hcursor]
    exact fun _ => ⟨_, _, hreaches, .atToken rfl (hafter.next hclose _) (Or.inl hrest)⟩

/-- A token that may not come next after what leads up to it is the first offence. -/
theorem Cursor.Reaches.exists_firstOffence {tokens after : List Token} {token : Token} {f : Frontier}
    (h : (Cursor.start tokens).Reaches f (token :: after)) (hnext : f.next token.shape = none)
    (hstop : (Expression.parseFrom tokens (.start tokens)).2.rest = token :: after ∨
      (Expression.parseFrom tokens (.start tokens)).2.rest = after) :
    ∃ before after, FirstOffence tokens token before after := by
  obtain ⟨before, hsplit, hrun, later, t, ht, -⟩ := h.exists_denotes
  refine ⟨before, after, hsplit, hstop, ⟨later, t, ht⟩, fun later => ?_⟩
  have hnone : Frontier.start.run (before.map Token.shape ++ [token.shape]) = none := by
    rw [Frontier.run_append, hrun, Option.bind_some, Frontier.run_singleton, hnext]
  have hnot := not_isExpression_append hnone (later.map Token.shape)
  simpa [Grammatical] using hnot

/-- A missing operator or operand is reported before the first token that can follow the tokens
before it in no expression. A missing operand at the end is reported where the tokens are not yet
an expression, but can be completed to one. -/
theorem missing_parts_are_reported_at_the_first_offence {text : List Char} {fault : Fault}
    (h : Expression.parse text = .error fault) :
    let tokens := Token.scan text
    (∀ token, fault = .missingOperator token →
      fault.detail = "missing operator before ".toList ++ Fault.quoted token.text ∧
        ∃ before after, FirstOffence tokens token before after) ∧
    (∀ glyph, fault = .missingOperand glyph → ∃ token before after,
      fault.detail = "missing operand before ".toList ++ Fault.quoted token.typed ∧
        token.isLiteral = false ∧ FirstOffence tokens token before after) ∧
    (fault = .missingOperandAtEnd →
      fault.detail = "missing operand at end of expression".toList ∧
        (∃ later t, later ≠ [] ∧ Denotes (tokens ++ later) t) ∧ ¬Grammatical tokens) := by
  intro tokens
  have hlocates := Expression.locates_of_ofTokens h
  refine ⟨?operator, ?operand, ?atEnd⟩
  case operator =>
    rintro token rfl
    obtain ⟨f, rest, hreaches, harises⟩ := hlocates rfl
    cases harises with
    | atToken hnames hnext hstop =>
      obtain rfl := hnames
      exact ⟨rfl, hreaches.exists_firstOffence hnext hstop⟩
  case operand =>
    rintro glyph rfl
    obtain ⟨f, rest, hreaches, harises⟩ := hlocates rfl
    cases harises with
    | atToken hnames hnext hstop =>
      obtain ⟨before, after, hfirst⟩ := hreaches.exists_firstOffence hnext hstop
      exact ⟨_, before, after, by rw [hnames.2]; rfl, hnames.1, hfirst⟩
  case atEnd =>
    rintro rfl
    obtain ⟨f, rest, hreaches, harises⟩ := hlocates rfl
    cases harises with
    | atEnd hvalue =>
      obtain ⟨taken, hsplit, hrun, later, t, ht, hne⟩ := hreaches.exists_denotes
      rw [List.append_nil] at hsplit
      subst hsplit
      refine ⟨rfl, ⟨later, t, hne hvalue, ht⟩, fun hexpression => ?_⟩
      have hend := hrun.symm.trans ((isExpression_iff_run _).mp hexpression)
      cases hend
      cases hvalue
    | atToken hnames _ _ => exact hnames.elim

/-- A number directly after a group, an operator after an operator, and an end after an operator. -/
theorem missing_parts_are_reported_at_the_first_offence_or_end :
    (Expression.parse "2X(3--(4) 5)+1".toList = .error (.missingOperator (.literal ['5'])) ∧
      ∃ before after,
        FirstOffence (Token.scan "2X(3--(4) 5)+1".toList) (.literal ['5']) before after) ∧
    (Expression.parse "(2+/3)-1".toList = .error (.missingOperand '/') ∧
      ∃ token before after,
        "missing operand before '/'".toList =
          "missing operand before ".toList ++ Fault.quoted token.typed ∧
        token.isLiteral = false ∧
          FirstOffence (Token.scan "(2+/3)-1".toList) token before after) ∧
    Expression.parse "-(2)X-".toList = .error .missingOperandAtEnd ∧
      (∃ later t, later ≠ [] ∧ Denotes (Token.scan "-(2)X-".toList ++ later) t) ∧
        ¬Grammatical (Token.scan "-(2)X-".toList) := by
  have hoperator : Expression.parse "2X(3--(4) 5)+1".toList =
      .error (.missingOperator (.literal ['5'])) := by decide +kernel
  have hoperand : Expression.parse "(2+/3)-1".toList = .error (.missingOperand '/') := by
    decide +kernel
  have hend : Expression.parse "-(2)X-".toList = .error .missingOperandAtEnd := by decide +kernel
  exact ⟨⟨hoperator, ((missing_parts_are_reported_at_the_first_offence hoperator).1 _ rfl).2⟩,
    ⟨hoperand, (missing_parts_are_reported_at_the_first_offence hoperand).2.1 _ rfl⟩,
    hend, ((missing_parts_are_reported_at_the_first_offence hend).2.2 rfl).2⟩

end PocketCalculator
