import PocketCalculator.Proofs.Keypad.Retyped
import PocketCalculator.Proofs.Scanning.Spelling
import PocketCalculator.Session

/-!
# Typing a text and evaluating it

Keys that are all accepted type the text they are written with, each operator with the
character it is shown with. If the text is whole, submitting adds nothing to it and drops
nothing from it, so what is shown is what evaluating the written text gives.
-/
namespace PocketCalculator.Keypad

open Operator

/-- A character that a typing key is written with. -/
def IsWritten (c : Char) : Prop :=
  isOperandChar c = true ∨ (ofGlyph? c).isSome = true ∨ c = '(' ∨ c = ')'

instance : DecidablePred IsWritten := fun c =>
  inferInstanceAs (Decidable (isOperandChar c = true ∨ (ofGlyph? c).isSome = true ∨ c = '(' ∨
    c = ')'))

/-- None of the keys that a text is written with is refused. -/
def AcceptsEach (s : Settings) (k : Keypad) : List Char → Prop
  | [] => True
  | c :: rest => ∃ key k', Key.ofChar? c = some key ∧ k.press s key = .ok k' ∧ k' ≠ k ∧
      k'.AcceptsEach s rest

/-- The keypad after a typable text. -/
def typed (w : List Char) : Keypad := ⟨w, .nothing, unclosed w⟩

variable {s : Settings} {w text : List Char} {c : Char}

/-! ## Spellings -/

theorem exists_key_of_isWritten (h : IsWritten c) :
    ∃ key : Key, Key.ofChar? c = some key ∧ key.char? = some (spell c) := by
  cases hop : ofGlyph? c with
  | some op =>
    refine ⟨.operator op, ?_, ?_⟩
    · simp only [Key.ofChar?, hop]
    · rw [spell_of_operator hop]
      rfl
  | none =>
    rw [spell_of_other hop]
    refine exists_key_of_isTyped ?_
    rcases h with h | h | h
    · exact Or.inl h
    · rw [hop] at h
      cases h
    · exact Or.inr (Or.inr h)

theorem not_isWhiteSpace_of_isWritten (h : IsWritten c) : Text.isWhiteSpace c = false := by
  rcases h with h | h | rfl | rfl
  · exact not_isWhiteSpace_of_isOperandChar h
  · obtain ⟨op, hop⟩ := Option.isSome_iff_exists.mp h
    exact not_isWhiteSpace_of_ofGlyph? hop
  · decide
  · decide

theorem spell_eq_iff {d : Char} (hd : ofGlyph? d = none) : spell c = d ↔ c = d := by
  cases hop : ofGlyph? c with
  | some op =>
    constructor <;> rintro rfl
    · rw [ofGlyph?_spell, hop] at hd
      cases hd
    · rw [hop] at hd
      cases hd
  | none => rw [spell_of_other hop]

theorem count_map_spell {d : Char} (hd : ofGlyph? d = none) :
    (text.map spell).count d = text.count d := by
  rw [List.count_eq_countP, List.count_eq_countP, List.countP_map]
  refine List.countP_congr fun c _ => ?_
  simpa using spell_eq_iff hd

theorem ofGlyph?_of_endsExpression (h : endsExpression c = true) : ofGlyph? c = none := by
  simp only [endsExpression, Bool.or_eq_true, beq_iff_eq] at h
  rcases h with h | rfl
  · exact ofGlyph?_of_isOperandChar (isOperandChar_of_isDigit h)
  · rfl

theorem evaluate_map_spell (s : Settings) (text : List Char) :
    s.evaluate (text.map spell) = s.evaluate text :=
  s.evaluate_congr (Token.scan_map_spell text)

/-! ## Typing -/

/-- A key that changes something adds its character, and the text stays typable. -/
theorem press_typed (hw : Typable s.precision w) {key : Key} (hkey : key.char? = some c)
    {k' : Keypad} (hpress : (typed w).press s key = .ok k') (hne : k' ≠ typed w) :
    k' = typed (w ++ [c]) ∧ Typable s.precision (w ++ [c]) := by
  rw [press_of_char hkey] at hpress
  rcases typeKey_cases (k := typed w) hw s key with hsame | ⟨d, hd, haccepts, htype⟩
  · rw [hsame] at hpress
    exact absurd (Except.ok.inj hpress).symm hne
  · obtain rfl : c = d := Option.some.inj (hkey.symm.trans hd)
    have htypable := hw.append ((accepts_iff_mayFollow hw hkey).mp haccepts)
    rw [htype] at hpress
    refine ⟨(Except.ok.inj hpress).symm.trans ?_, htypable⟩
    exact congrArg (Keypad.mk (w ++ [c]) .nothing) (htypable.groupsAfter hkey)

/-- Accepted keys add the text they are written with, in the characters of the keypad. -/
theorem AcceptsEach.run (hw : Typable s.precision w) (hchars : ∀ c ∈ text, IsWritten c)
    (h : (typed w).AcceptsEach s text) :
    ∃ keys, text.mapM Key.ofChar? = some keys ∧
      (typed w).pressAll s keys = .ok (typed (w ++ text.map spell)) := by
  induction text generalizing w with
  | nil => exact ⟨[], rfl, by rw [List.map_nil, List.append_nil]; rfl⟩
  | cons c rest ih =>
    obtain ⟨key, k', hof, hpress, hne, hrest⟩ := h
    obtain ⟨key', hof', hkey⟩ := exists_key_of_isWritten (hchars c (by simp))
    obtain rfl : key = key' := Option.some.inj (hof.symm.trans hof')
    obtain ⟨rfl, hw'⟩ := press_typed hw hkey hpress hne
    obtain ⟨keys, hkeys, hrun⟩ := ih hw' (fun d hd => hchars d (by simp [hd])) hrest
    refine ⟨key :: keys, by simp [List.mapM_cons, hof, hkeys], ?_⟩
    rw [pressAll, List.foldlM_cons, hpress]
    refine Eq.trans hrun ?_
    rw [List.map_cons, List.append_assoc, List.singleton_append]

/-! ## Submitting -/

theorem opens_map_spell (text : List Char) :
    brackets.opens (text.map spell) = brackets.opens text := count_map_spell rfl

theorem closes_map_spell (text : List Char) :
    brackets.closes (text.map spell) = brackets.closes text := count_map_spell rfl

theorem submission_map_spell (hends : ∃ c ∈ text.getLast?, endsExpression c = true)
    (hbalanced : brackets.Balanced text) : submission (text.map spell) = text.map spell := by
  obtain ⟨c, hlast, hc⟩ := hends
  refine submission_eq_self ⟨c, ?_, hc⟩ ?_
  · rw [List.getLast?_map, Option.mem_def.mp hlast, Option.map_some,
      spell_of_other (ofGlyph?_of_endsExpression hc)]
    rfl
  · rw [opens_map_spell, closes_map_spell, hbalanced.closes_eq]

theorem unclosed_map_spell (hbalanced : brackets.Balanced text) :
    unclosed (text.map spell) = 0 := by
  rw [unclosed, opens_map_spell, closes_map_spell, hbalanced.closes_eq, Nat.sub_self]

/-! ## Replaying -/

theorem readSequence_of_mapM {keys : List Key} (hspace : ∀ c ∈ text, Text.isWhiteSpace c = false)
    (hkeys : text.mapM Key.ofChar? = some keys) : Key.readSequence text = .ok keys := by
  have hfilter : (text.filter fun c => !Text.isWhiteSpace c) = text :=
    List.filter_eq_self.mpr fun c hc => by rw [hspace c hc]; rfl
  rw [Key.readSequence, hfilter]
  clear hfilter
  induction text generalizing keys with
  | nil =>
    cases hkeys
    rfl
  | cons c rest ih =>
    rw [List.mapM_cons] at hkeys
    obtain ⟨key, hkey, hkeys⟩ := Option.bind_eq_some_iff.mp hkeys
    obtain ⟨others, hothers, hkeys⟩ := Option.bind_eq_some_iff.mp hkeys
    cases hkeys
    rw [List.mapM_cons, hkey, ih (fun d hd => hspace d (by simp [hd])) hothers]
    rfl

/-- A replay passes exactly if the text that it submits has a value. -/
theorem result_replay {keys : List Char} {k : Keypad} (hreplay : Keypad.replay s keys = .ok k)
    (houtput : k.output = outputOf s text) (style style' : ReportStyle) :
    (Session.replay s style keys).result = (Session.evaluate s style' [text]).result := by
  have hpassed : (KeysRecord.mk keys k).passed = (EvaluationRecord.evaluate s text).passed := by
    rw [KeysRecord.passed, KeysRecord.fault?, EvaluationRecord.passed, EvaluationRecord.evaluate,
      houtput, outputOf]
    cases s.evaluate text <;> rfl
  rw [Session.replay, hreplay]
  exact congrArg (fun passed => Except.ok (Summary.zero.record passed)) hpassed

/-- A whole text of which every key is accepted is typed in the characters of the keypad, shows
its own value or fault, and is counted in a replay as it is in an evaluation. -/
theorem typing_agrees_with_evaluating (hchars : ∀ c ∈ text, IsWritten c)
    (haccepts : empty.AcceptsEach s text)
    (hends : ∃ c ∈ text.getLast?, endsExpression c = true)
    (hbalanced : brackets.Balanced text) :
    (∃ keys, text.mapM Key.ofChar? = some keys ∧
      empty.pressAll s (keys ++ [.equals]) =
        .ok ⟨text.map spell,
          match s.evaluate text with
          | .ok shown => .value (Decimal.trimFraction shown)
          | .error fault => .fault fault.kind, 0⟩) ∧
    ∀ style style' : ReportStyle,
      (Session.replay s style (text ++ ['='])).result =
        (Session.evaluate s style' [text]).result := by
  obtain ⟨keys, hkeys, hrun⟩ := AcceptsEach.run (Typable.nil s.precision) hchars haccepts
  rw [List.nil_append] at hrun
  have hsubmitted := submission_map_spell hends hbalanced
  have hne : submission (text.map spell) ≠ [] := by
    rw [hsubmitted]
    rintro hnil
    obtain ⟨c, hlast, -⟩ := hends
    rw [List.map_eq_nil_iff.mp hnil] at hlast
    cases hlast
  have hpress : empty.pressAll s (keys ++ [.equals]) = .ok ⟨text.map spell, outputOf s text, 0⟩ := by
    -- The last key submits the typed text, which has the tokens of the given one.
    have hsubmit : (typed (text.map spell)).press s .equals =
        .ok ⟨text.map spell, outputOf s text, 0⟩ := by
      rw [press, submit_of_ne_nil hne, typed, hsubmitted, unclosed_map_spell hbalanced, outputOf,
        evaluate_map_spell, ← outputOf]
    have hend := pressAll_append hrun [.equals]
    rw [pressAll, pressAll, List.foldlM_cons, hsubmit] at hend
    exact hend
  have hread : Key.readSequence (text ++ ['=']) = .ok (keys ++ [.equals]) := by
    refine readSequence_of_mapM (fun c hc => ?_) ?_
    · rcases List.mem_append.mp hc with hc | hc
      · exact not_isWhiteSpace_of_isWritten (hchars c hc)
      · rw [List.mem_singleton.mp hc]
        decide
    · have hequals : Key.ofChar? '=' = some .equals := rfl
      simp [List.mapM_append, hkeys, hequals]
  have hreplay : Keypad.replay s (text ++ ['=']) = .ok ⟨text.map spell, outputOf s text, 0⟩ := by
    rw [Keypad.replay, hread]
    dsimp only
    rw [hpress]
    rfl
  exact ⟨⟨keys, hkeys, hpress⟩, result_replay hreplay rfl⟩

/-- A product and a quotient that are typed with other characters than the keypad shows. -/
theorem typing_agrees_with_evaluating_respelled :
    (∃ keys, ['2', '×', '(', '3', '÷', '2', ')'].mapM Key.ofChar? = some keys ∧
      empty.pressAll Settings.default (keys ++ [.equals]) =
        .ok ⟨['2', 'X', '(', '3', '/', '2', ')'], .value ['3'], 0⟩) ∧
    ∀ style : ReportStyle,
      (Session.replay Settings.default style ['2', '×', '(', '3', '÷', '2', ')', '=']).result =
        .ok ⟨1, 0⟩ := by
  have haccepts : empty.AcceptsEach Settings.default ['2', '×', '(', '3', '÷', '2', ')'] :=
    ⟨_, _, rfl, rfl, by decide, _, _, rfl, rfl, by decide, _, _, rfl, rfl, by decide,
      _, _, rfl, rfl, by decide, _, _, rfl, rfl, by decide, _, _, rfl, rfl, by decide,
      _, _, rfl, rfl, by decide, trivial⟩
  have hbalanced : brackets.Balanced ['2', '×', '(', '3', '÷', '2', ')'] :=
    .cons_other (by decide) (by decide) <| .cons_other (by decide) (by decide) <|
      Brackets.Balanced.group (w := ['3', '÷', '2']) <|
        Brackets.balanced_of_not_mem (by decide) (by decide)
  have hchars : ['2', '×', '(', '3', '÷', '2', ')'].all (fun c => decide (IsWritten c)) = true := by
    decide
  have hvalue : Settings.default.evaluate ['2', '×', '(', '3', '÷', '2', ')'] =
      .ok ['3', '.', '0'] := by decide +kernel
  have hagrees := typing_agrees_with_evaluating (s := Settings.default)
    (fun c hc => of_decide_eq_true (List.all_eq_true.mp hchars c hc)) haccepts
    ⟨')', rfl, rfl⟩ hbalanced
  rw [hvalue] at hagrees
  refine ⟨hagrees.1, fun style => (hagrees.2 style style).trans ?_⟩
  simp only [Session.evaluate, Session.evaluateFrom, Session.evaluateOne,
    EvaluationRecord.evaluate, EvaluationRecord.passed, hvalue]
  rfl

end PocketCalculator.Keypad
