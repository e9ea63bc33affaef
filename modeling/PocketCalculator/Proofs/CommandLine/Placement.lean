import Mathlib.Data.List.TakeWhile
import PocketCalculator.Proofs.CommandLine.Choices

/-!
# Where options stand

Options are read in the same way before the command and after it, as long as no expression has been
met. Reading a written choice gives it, so that what is given is all that is chosen on both sides,
whatever the order. What differs is a value that begins with a hyphen: after the command, where
expressions may begin so, it can stand in an argument of its own, and before it that is an unknown
option.
-/
namespace PocketCalculator.CommandLine

theorem Environment.IsValid.checkEnvironment_eq {env : Environment} (henv : env.IsValid)
    (g : Given) : g.checkEnvironment env = .ok () := by
  have hrounding : ∀ text, env.rounding = some text → ∃ value, policyOfName? text = some value :=
    fun text htext => (henv.rounding text htext).imp fun _ => Choice.hasValue_rounding_iff.mp
  have hprecision : ∀ text, env.precision = some text →
      ∃ value, precisionOfText? text = some value := fun text htext => by
    obtain ⟨value, hvalue⟩ := henv.precision text htext
    exact ⟨_, Choice.hasValue_precision_iff.mp hvalue⟩
  unfold Given.checkEnvironment
  cases hr : env.rounding with
  | none =>
    cases hp : env.precision with
    | none => simp [pure, Except.pure]
    | some text =>
      obtain ⟨value, hvalue⟩ := hprecision text hp
      simp [hvalue, pure, Except.pure]
  | some text =>
    obtain ⟨value, hvalue⟩ := hrounding text hr
    cases hp : env.precision with
    | none => simp [hvalue, Given.orInvalid, pure, Except.pure, bind, Except.bind]
    | some text =>
      obtain ⟨places, hplaces⟩ := hprecision text hp
      simp [hvalue, hplaces, Given.orInvalid, pure, Except.pure, bind, Except.bind]

/-! ## Shapes -/

namespace Shape

theorem ne_equals_of_mem {name : List Char} (hname : '=' ∉ name) : ∀ c ∈ name, (c != '=') = true :=
  fun _ hc => bne_iff_ne.mpr (ne_of_mem_of_not_mem hc hname)

theorem ofArgument_long {name : List Char} (hne : name ≠ []) (hname : '=' ∉ name) :
    ofArgument ("--".toList ++ name) = .long name none := by
  have hdrop : name.dropWhile (· != '=') = [] :=
    List.dropWhile_eq_nil_iff.mpr (ne_equals_of_mem hname)
  obtain ⟨c, rest, rfl⟩ := List.exists_cons_of_ne_nil hne
  simp [ofArgument, hdrop]

theorem ofArgument_attached {name : List Char} (hname : '=' ∉ name) (text : List Char) :
    ofArgument ("--".toList ++ name ++ '=' :: text) = .long name (some text) := by
  have hall := ne_equals_of_mem hname
  have hdrop : (name ++ '=' :: text).dropWhile (· != '=') = '=' :: text := by
    simp [List.dropWhile_append_of_pos hall]
  have htake : (name ++ '=' :: text).takeWhile (· != '=') = name := by
    simp [List.takeWhile_append_of_pos hall]
  cases name <;> simp_all [ofArgument]

theorem ofArgument_plain {text : List Char} (h : text.head? ≠ some '-') :
    ofArgument text = .plain := by
  unfold ofArgument
  split <;> simp_all

theorem ofArgument_short {letter : Char} (h : letter ≠ '-') (letters : List Char) :
    ofArgument ('-' :: letter :: letters) = .short (letter :: letters) := by
  unfold ofArgument
  split <;> simp_all

end Shape

namespace Choice

variable {text : List Char} {choice : Choice}

/-- Only a number can be a value that begins with a hyphen. -/
theorem HasValue.head?_or_digit (h : choice.HasValue text) :
    text.head? ≠ some '-' ∨
      ∃ digit digits, text = '-' :: digit :: digits ∧ digit.isDigit = true := by
  cases h with
  | @precision value sign digits hsign hne hdigits hvalue =>
    obtain ⟨digit, rest, rfl⟩ := List.exists_cons_of_ne_nil hne
    have hdigit := hdigits digit (by simp)
    rcases hsign with rfl | rfl | ⟨rfl, -⟩
    · refine Or.inl fun heq => ?_
      cases heq
      cases hdigit
    · exact Or.inl (by simp)
    · exact Or.inr ⟨digit, rest, rfl, hdigit⟩
  | _ => exact Or.inl (by decide)

end Choice

theorem Flag.ofLetter?_of_isDigit {c : Char} (h : c.isDigit = true) : ofLetter? c = none := by
  unfold ofLetter?
  split <;> simp_all

namespace Side

variable {s s' : Side} {command : Option CommandName} {g g' : Given} {choices : List Choice}
  {choice : Choice} {hyphenAllowed : Bool}

/-! ## Reading options -/

theorem readOption_letter (s : Side) (hyphenAllowed : Bool) :
    s.readOption hyphenAllowed "-q".toList = (s.raise .quiet).map some := by
  have hshape : Shape.ofArgument "-q".toList = .short ['q'] := rfl
  have hletter : Flag.ofLetter? 'q' = some .quiet := rfl
  rw [readOption, hshape]
  cases hraised : s.raise .quiet <;>
    simp [hletter, hraised, bind, Except.bind, pure, Except.pure, Except.map]

theorem readOption_flag (s : Side) (hyphenAllowed : Bool) (flag : Flag) :
    s.readOption hyphenAllowed ("--".toList ++ flag.name) = (s.raise flag).map some := by
  have hshape : Shape.ofArgument ("--".toList ++ flag.name) = .long flag.name none := by
    cases flag <;> exact Shape.ofArgument_long (by decide) (by decide)
  have hname : Flag.ofName? flag.name = some flag := by cases flag <;> rfl
  rw [readOption, hshape]
  simp [hname]

theorem setting_name (setting : Setting) :
    setting.name ≠ [] ∧ '=' ∉ setting.name ∧ Flag.ofName? setting.name = none ∧
      Setting.ofName? setting.name = some setting := by
  cases setting <;> decide

theorem readOption_attached (s : Side) (hyphenAllowed : Bool) (setting : Setting)
    (text : List Char) :
    s.readOption hyphenAllowed ("--".toList ++ setting.name ++ '=' :: text) =
      (s.assign setting (some text)).map some := by
  obtain ⟨-, hname, hflag, hsetting⟩ := setting_name setting
  rw [readOption, Shape.ofArgument_attached hname]
  simp [hflag, hsetting]

theorem readOption_apart (s : Side) (hyphenAllowed : Bool) (setting : Setting) :
    s.readOption hyphenAllowed ("--".toList ++ setting.name) =
      (s.assign setting none).map some := by
  obtain ⟨hne, hname, hflag, hsetting⟩ := setting_name setting
  rw [readOption, Shape.ofArgument_long hne hname]
  simp [hflag, hsetting]

/-- A value that may stand in an argument of its own is not read as an option there. -/
theorem readOption_value {text : List Char} (h : choice.HasValue text)
    (hallowed : hyphenAllowed = true ∨ text.head? ≠ some '-') (s : Side) :
    Shape.ofArgument text ≠ .escape ∧ s.readOption hyphenAllowed text = .ok none := by
  by_cases hhead : text.head? = some '-'
  · obtain hne | ⟨digit, digits, rfl, hdigit⟩ := h.head?_or_digit
    · exact absurd hhead hne
    · have hshape : Shape.ofArgument ('-' :: digit :: digits) = .short (digit :: digits) :=
        Shape.ofArgument_short (by rintro rfl; cases hdigit) digits
      have hhyphen : hyphenAllowed = true := by simpa using hallowed
      rw [readOption, hshape]
      simp [hhyphen, Flag.ofLetter?_of_isDigit hdigit]
  · rw [readOption, Shape.ofArgument_plain hhead]
    simp

/-! ## Options one after the other -/

/-- This is given once the value that is still to be looked at has been. -/
def Gives (s : Side) (command : Option CommandName) (g : Given) : Prop :=
  s.settle = .ok ⟨command, g, none⟩

theorem Gives.awaitsValue_eq (h : s.Gives command g) : s.awaitsValue = false := by
  obtain ⟨command, given, pending⟩ := s
  match pending with
  | none => rfl
  | some (_, some _) => rfl
  | some (_, none) => cases h

theorem Gives.raise_eq (h : s.Gives command g) (hg : g.IsOf choices)
    (hnew : choice.option ∉ choices.map Choice.option) {flag : Flag}
    (hflag : choice.option = .inl flag) :
    s.raise flag = .ok ⟨command, g.give choice, none⟩ := by
  have hmem : choice ∉ choices := Given.not_mem_of_option hnew choice rfl
  rw [raise, h]
  cases choice with
  | quiet =>
    cases hflag
    have hfree : g.quiet = false := by simpa [← hg.quiet] using hmem
    simp [bind, Except.bind, hfree, Given.give, pure, Except.pure]
  | logJson =>
    cases hflag
    have hfree : g.logJson = false := by simpa [← hg.logJson] using hmem
    simp [bind, Except.bind, hfree, Given.give, pure, Except.pure]
  | _ => cases hflag

/-- A way to read the arguments of a side: it takes options and their values as they come. -/
structure IsReader {α : Type} (hyphenAllowed : Bool) (read : Side → List (List Char) → α) :
    Prop where
  option : ∀ {s s' : Side} {argument : List Char} (later : List (List Char)),
    s.awaitsValue = false → argument.head? = some '-' → Shape.ofArgument argument ≠ .escape →
    s.readOption hyphenAllowed argument = .ok (some s') →
    read s (argument :: later) = read s' later
  value : ∀ {s : Side} {text : List Char} (later : List (List Char)),
    s.awaitsValue = true → Shape.ofArgument text ≠ .escape →
    s.readOption hyphenAllowed text = .ok none →
    read s (text :: later) = read (s.supply text) later

theorem isReader_readExpressions : IsReader true readExpressions where
  option later _ _ hshape hread := by
    rw [readExpressions, if_neg hshape, hread]
    rfl
  value later hawaits hshape hread := by
    rw [readExpressions, if_neg hshape, hread]
    simp [bind, Except.bind, hawaits]

theorem not_command_of_hyphen {argument : List Char} (h : argument.head? = some '-') :
    (argument == helpName) = false ∧ CommandName.ofName? argument = none := by
  obtain ⟨rest, rfl⟩ := List.head?_eq_some_iff.mp h
  exact ⟨rfl, rfl⟩

theorem isReader_readArguments (env : Environment) : IsReader false (readArguments env) where
  option later hawaits hhead hshape hread := by
    obtain ⟨hhelp, hcommand⟩ := not_command_of_hyphen hhead
    rw [readArguments.eq_def]
    simp [hawaits, hhelp, hcommand, hshape, hread, bind, Except.bind]
  value later hawaits hshape hread := by
    rw [readArguments.eq_def]
    simp [hawaits, hshape, hread, bind, Except.bind]

variable {α : Type} {read : Side → List (List Char) → α}

/-- However a choice is written, reading it gives it. -/
theorem IsReader.written (hread : IsReader hyphenAllowed read) (h : s.Gives command g)
    (hg : g.IsOf choices) (hnew : choice.option ∉ choices.map Choice.option)
    {arguments : List (List Char)} (hwritten : choice.Written hyphenAllowed arguments) :
    ∃ s' : Side, s'.Gives command (g.give choice) ∧
      ∀ later, read s (arguments ++ later) = read s' later := by
  have hawaits := h.awaitsValue_eq
  cases hwritten with
  | letter =>
    refine ⟨⟨command, g.give .quiet, none⟩, rfl, fun later => ?_⟩
    refine hread.option later hawaits rfl (by decide) ?_
    rw [readOption_letter, h.raise_eq hg hnew rfl]
    rfl
  | @flag _ flag hflag =>
    refine ⟨⟨command, g.give choice, none⟩, rfl, fun later => ?_⟩
    refine hread.option later hawaits rfl (by cases flag <;> decide) ?_
    rw [readOption_flag, h.raise_eq hg hnew hflag]
    rfl
  | @attached _ setting text hsetting hvalue =>
    refine ⟨⟨command, g.give choice, none⟩, rfl, fun later => ?_⟩
    refine hread.option later hawaits rfl ?_ ?_
    · rw [Shape.ofArgument_attached (setting_name setting).2.1]
      exact nofun
    · rw [readOption_attached, assign, h]
      simp [bind, Except.bind, hg.set_eq hnew hsetting hvalue, pure, Except.pure, Except.map]
  | @apart _ setting text hsetting hvalue hallowed =>
    -- The value is kept as it is and only looked at when something else is read.
    refine ⟨⟨command, g, some (setting, some text)⟩, ?_, fun later => ?_⟩
    · rw [Gives, settle]
      simp [hg.set_eq hnew hsetting hvalue, Except.map]
    · obtain ⟨hescape, hnone⟩ :=
        readOption_value hvalue hallowed ⟨command, g, some (setting, none)⟩
      have hname : read s (("--".toList ++ setting.name) :: text :: later) =
          read ⟨command, g, some (setting, none)⟩ (text :: later) := by
        refine hread.option _ hawaits rfl ?_ ?_
        · rw [Shape.ofArgument_long (setting_name setting).1 (setting_name setting).2.1]
          exact nofun
        · rw [readOption_apart, assign, h]
          rfl
      exact hname.trans (hread.value later rfl hescape hnone)

theorem IsReader.writtenAll (hread : IsReader hyphenAllowed read) (h : s.Gives command g)
    (hg : g.IsOf choices) {more : List Choice} (honce : ((choices ++ more).map Choice.option).Nodup)
    {arguments : List (List Char)} (hwritten : Choice.WrittenAll hyphenAllowed more arguments) :
    ∃ (s' : Side) (g' : Given), s'.Gives command g' ∧ g'.IsOf (choices ++ more) ∧
      ∀ later, read s (arguments ++ later) = read s' later := by
  induction hwritten generalizing s g choices with
  | nil => exact ⟨s, g, h, by simpa using hg, fun later => rfl⟩
  | @cons choice more arguments others hchoice _ ih =>
    rw [List.append_cons] at honce
    have hnew : choice.option ∉ choices.map Choice.option := by
      intro hmem
      rw [List.map_append, List.map_append, List.nodup_append, List.nodup_append] at honce
      exact honce.1.2.2 _ hmem _ (by simp) rfl
    obtain ⟨next, hnext, hstep⟩ := hread.written h hg hnew hchoice
    obtain ⟨s', g', hs', hg', hrest⟩ := ih hnext (hg.give hnew) honce
    refine ⟨s', g', hs', by simpa using hg', fun later => ?_⟩
    rw [List.append_assoc, hstep, hrest]

/-! ## Sides of the command -/

theorem Gives.finish_eq (h : s.Gives command g) {env : Environment} (henv : env.IsValid) :
    s.finish env = .ok g := by
  have hcheck := henv.checkEnvironment_eq g
  rw [finish, h]
  simp [bind, Except.bind, hcheck, pure, Except.pure]

end Side

/-- Expressions end the options after the command, and are not read themselves. -/
theorem readExpressions_expressions {s : Side} {command : Option CommandName} {g : Given}
    (h : s.Gives command g) {expressions : List (List Char)}
    (hfirst : ∀ e ∈ expressions.head?, e.head? ≠ some '-') :
    readExpressions s expressions = .ok (s, expressions) := by
  cases expressions with
  | nil => rfl
  | cons e later =>
    have hshape := Shape.ofArgument_plain (hfirst e rfl)
    rw [readExpressions, hshape, Side.readOption, hshape]
    simp [h.awaitsValue_eq, bind, Except.bind, pure, Except.pure]

theorem readCommand_eval {env : Environment} (henv : env.IsValid) {s : Side}
    {command : Option CommandName} {g : Given} {arguments expressions : List (List Char)}
    (h : s.Gives command g)
    (hread : readExpressions (.start (some .eval)) arguments = .ok (s, expressions)) :
    readCommand env .eval arguments = .ok (g, .eval expressions) := by
  rw [readCommand, hread]
  simp [bind, Except.bind, h.finish_eq henv, pure, Except.pure]

theorem readArguments_eval {env : Environment} (henv : env.IsValid) {s : Side}
    {command : Option CommandName} {before after : Given} {arguments expressions : List (List Char)}
    (h : s.Gives command before)
    (hread : readCommand env .eval arguments = .ok (after, .eval expressions)) :
    readArguments env s ("eval".toList :: arguments) =
      .ok (after.completedBy before, .eval expressions) := by
  have hhelp : ("eval".toList == helpName) = false := rfl
  have hcommand : CommandName.ofName? "eval".toList = some .eval := rfl
  rw [readArguments.eq_def]
  simp only [h.awaitsValue_eq, hhelp, hcommand, Bool.not_false, Bool.and_false,
    Bool.false_eq_true, if_false, hread, h.finish_eq henv]
  rfl

/-- What is chosen before and after the command of an evaluation is all given. -/
theorem exists_parse_eq {env : Environment} (henv : env.IsValid) {before after : List Choice}
    (honce : ((after ++ before).map Choice.option).Nodup)
    {argumentsBefore argumentsAfter expressions : List (List Char)}
    (hbefore : Choice.WrittenAll false before argumentsBefore)
    (hafter : Choice.WrittenAll true after argumentsAfter)
    (hfirst : ∀ e ∈ expressions.head?, e.head? ≠ some '-') :
    ∃ g : Given, g.IsOf (after ++ before) ∧
      parse env (argumentsBefore ++ "eval".toList :: (argumentsAfter ++ expressions)) =
        .ok (.ofGiven env g, .eval expressions) := by
  rw [List.map_append, List.nodup_append] at honce
  obtain ⟨honceAfter, honceBefore, hdisjoint⟩ := honce
  obtain ⟨sideBefore, givenBefore, hsideBefore, hgivenBefore, hreadBefore⟩ :=
    (Side.isReader_readArguments env).writtenAll (s := .start none) rfl Given.isOf_nothing
      (by simpa using honceBefore) hbefore
  obtain ⟨sideAfter, givenAfter, hsideAfter, hgivenAfter, hreadAfter⟩ :=
    Side.isReader_readExpressions.writtenAll (s := .start (some .eval)) rfl Given.isOf_nothing
      (by simpa using honceAfter) hafter
  have hcommand := readCommand_eval henv hsideAfter
    ((hreadAfter expressions).trans (readExpressions_expressions hsideAfter hfirst))
  refine ⟨givenAfter.completedBy givenBefore, ?_, ?_⟩
  · refine Given.IsOf.completedBy hgivenAfter hgivenBefore fun choice hchoice other hother => ?_
    exact hdisjoint _ (List.mem_map_of_mem hchoice) _ (List.mem_map_of_mem hother)
  · rw [parse, hreadBefore, readArguments_eval henv hsideBefore hcommand]
    rfl

/-- Options that are chosen once each make the same configuration wherever they stand and however
they are written, with the variables used for those that are not chosen; and everything from the
first expression on is an expression. Only a value that begins with a hyphen is no argument of its
own before the command. -/
theorem options_mean_the_same_everywhere {env : Environment} (henv : env.IsValid)
    {choices : List Choice} (honce : (choices.map Choice.option).Nodup) :
    ∃ c : Configuration, c.Follows env choices ∧ c.settings.precision ≤ Settings.maxPrecision ∧
      ∀ before after argumentsBefore argumentsAfter expressions,
        (before ++ after).Perm choices →
        Choice.WrittenAll false before argumentsBefore →
        Choice.WrittenAll true after argumentsAfter →
        (∀ e ∈ expressions.head?, e.head? ≠ some '-') →
        parse env (argumentsBefore ++ "eval".toList :: (argumentsAfter ++ expressions)) =
          .ok (c, .eval expressions) := by
  obtain ⟨g, hg⟩ := Given.exists_isOf honce
  refine ⟨.ofGiven env g, hg.follows henv, Settings.withPrecision_le _ _, ?_⟩
  intro before after argumentsBefore argumentsAfter expressions hperm hbefore hafter hfirst
  have hsame : (after ++ before).Perm choices := List.perm_append_comm.trans hperm
  obtain ⟨g', hg', hparse⟩ :=
    exists_parse_eq henv ((hsame.map _).nodup_iff.mpr honce) hbefore hafter hfirst
  rw [hparse, hg'.unique hg fun choice => hsame.mem_iff]

/-- Values from both sides and from the environment, and expressions that look like options. -/
theorem options_mean_the_same_everywhere_mixed :
    let env : Environment := ⟨some "final-only".toList, some "3".toList⟩
    let c : Configuration := ⟨.quiet, .auto, .json, false, ⟨.finalOnly, 7⟩⟩
    env.IsValid ∧
      parse env ["--precision=+07".toList, "eval".toList, "--format".toList, "json".toList,
        "-q".toList, "1".toList, "--".toList, "-v".toList] =
          .ok (c, .eval ["1".toList, "--".toList, "-v".toList]) ∧
      parse env ["--quiet".toList, "--format=json".toList, "eval".toList, "--precision".toList,
        "7".toList, "2".toList] = .ok (c, .eval ["2".toList]) := by
  intro env c
  have hvalid : env.IsValid := by
    constructor
    · intro text htext
      cases htext
      exact ⟨_, .finalOnly⟩
    · intro text htext
      cases htext
      have hthree : (Choice.precision 3).HasValue ([] ++ ['3']) :=
        .precision (Or.inl rfl) (by decide) (List.all_eq_true.mp rfl) rfl
      exact ⟨3, hthree⟩
  have hsigned : (Choice.precision 7).HasValue (['+'] ++ ['0', '7']) :=
    .precision (Or.inr (Or.inl rfl)) (by decide) (List.all_eq_true.mp rfl) rfl
  have hseven : (Choice.precision 7).HasValue ([] ++ ['7']) :=
    .precision (Or.inl rfl) (by decide) (List.all_eq_true.mp rfl) rfl
  obtain ⟨c', -, -, hparse⟩ := options_mean_the_same_everywhere hvalid
    (by decide : (([.precision 7, .format .json, .quiet] : List Choice).map Choice.option).Nodup)
  have hfirst := hparse [.precision 7] [.format .json, .quiet] _ _
    ["1".toList, "--".toList, "-v".toList] (List.Perm.refl _)
    (.cons (.attached rfl hsigned) .nil)
    (.cons (.apart rfl .json (Or.inl rfl)) (.cons .letter .nil)) (by decide)
  have hsecond := hparse [.quiet, .format .json] [.precision 7] _ _ ["2".toList] (by decide)
    (.cons (.flag rfl) (.cons (.attached rfl .json) .nil))
    (.cons (.apart rfl hseven (Or.inl rfl)) .nil) (by decide)
  have hread : parse env ["--precision=+07".toList, "eval".toList, "--format".toList,
      "json".toList, "-q".toList, "1".toList, "--".toList, "-v".toList] =
        .ok (c, .eval ["1".toList, "--".toList, "-v".toList]) := by decide +kernel
  have hc : c' = c := by
    cases hfirst.symm.trans hread
    rfl
  rw [hc] at hsecond
  exact ⟨hvalid, hread, hsecond⟩

/-- Zero with a minus sign is a value of the precision, and may stand in an argument of its own
after the command but not before it. -/
theorem negative_zero_before_command :
    let line := ["--precision".toList, "-0".toList]
    (Choice.precision 0).Written true line ∧
      parse ⟨none, none⟩ (line ++ ["eval".toList, "1".toList]) = .error .unknownArgument ∧
      parse ⟨none, none⟩ ("eval".toList :: line ++ ["1".toList]) =
        .ok (⟨.normal, .auto, .text, false, ⟨.everyStep, 0⟩⟩, .eval ["1".toList]) ∧
      ¬∃ c : Configuration, ∀ before after argumentsBefore argumentsAfter expressions,
        (before ++ after).Perm [.precision 0] →
        Choice.WrittenAll true before argumentsBefore →
        Choice.WrittenAll true after argumentsAfter →
        (∀ e ∈ expressions.head?, e.head? ≠ some '-') →
        parse ⟨none, none⟩ (argumentsBefore ++ "eval".toList :: (argumentsAfter ++ expressions)) =
          .ok (c, .eval expressions) := by
  intro line
  have hvalue : (Choice.precision 0).HasValue (['-'] ++ ['0']) :=
    .precision (Or.inr (Or.inr ⟨rfl, rfl⟩)) (by decide) (List.all_eq_true.mp rfl) rfl
  have hwritten : (Choice.precision 0).Written true
      ["--".toList ++ Setting.precision.name, ['-'] ++ ['0']] := .apart rfl hvalue (Or.inl rfl)
  have hrefused : parse ⟨none, none⟩ (line ++ ["eval".toList, "1".toList]) =
      .error .unknownArgument := by decide +kernel
  refine ⟨hwritten, hrefused, by decide +kernel, ?_⟩
  rintro ⟨c, hparse⟩
  have hread := hparse [.precision 0] [] line [] ["1".toList] (List.Perm.refl _)
    (.cons hwritten .nil) .nil (by decide)
  cases hrefused.symm.trans hread

end PocketCalculator.CommandLine
