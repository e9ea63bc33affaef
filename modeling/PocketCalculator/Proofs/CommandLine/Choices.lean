import Mathlib.Data.List.Induction
import PocketCalculator.CommandLine.Parse

/-!
# Choices of options

An option can be chosen with any value it has, and each choice can be written in several ways. What
is given on one side of the command is the choices that are written there, in any order.
-/
namespace PocketCalculator.CommandLine

/-- An option with its value. -/
inductive Choice where
  | quiet
  | logJson
  | color (value : ColorChoice)
  | format (value : Format)
  | rounding (value : RoundingPolicy)
  | precision (value : Fin (Settings.maxPrecision + 1))
  deriving DecidableEq, Repr

namespace Choice

/-- The option that is chosen. -/
def option : Choice → Flag ⊕ Setting
  | quiet => .inl .quiet
  | logJson => .inl .logJson
  | color _ => .inr .color
  | format _ => .inr .format
  | rounding _ => .inr .rounding
  | precision _ => .inr .precision

/-- The texts that an option takes for its value. A number may have leading zeros and a sign, but
only zero may be negative. -/
inductive HasValue : Choice → List Char → Prop
  | auto : HasValue (.color .auto) "auto".toList
  | always : HasValue (.color .always) "always".toList
  | never : HasValue (.color .never) "never".toList
  | text : HasValue (.format .text) "text".toList
  | json : HasValue (.format .json) "json".toList
  | everyStep : HasValue (.rounding .everyStep) "every-step".toList
  | finalOnly : HasValue (.rounding .finalOnly) "final-only".toList
  | precision {value : Fin (Settings.maxPrecision + 1)} {sign digits : List Char} :
    sign = [] ∨ sign = ['+'] ∨ sign = ['-'] ∧ value.val = 0 →
    digits ≠ [] → (∀ c ∈ digits, c.isDigit = true) → Nat.ofDigitChars 10 digits 0 = value →
    HasValue (.precision value) (sign ++ digits)

/-- The ways to write a choice. A value in an argument of its own may be allowed to begin with a
hyphen or not. -/
inductive Written (hyphenAllowed : Bool) : Choice → List (List Char) → Prop
  | letter : Written hyphenAllowed quiet ["-q".toList]
  | flag {choice : Choice} {flag : Flag} : choice.option = .inl flag →
    Written hyphenAllowed choice ["--".toList ++ flag.name]
  | attached {choice : Choice} {setting : Setting} {text : List Char} :
    choice.option = .inr setting → choice.HasValue text →
    Written hyphenAllowed choice ["--".toList ++ setting.name ++ '=' :: text]
  | apart {choice : Choice} {setting : Setting} {text : List Char} :
    choice.option = .inr setting → choice.HasValue text →
    (hyphenAllowed = true ∨ text.head? ≠ some '-') →
    Written hyphenAllowed choice ["--".toList ++ setting.name, text]

/-- Choices written one after the other. -/
inductive WrittenAll (hyphenAllowed : Bool) : List Choice → List (List Char) → Prop
  | nil : WrittenAll hyphenAllowed [] []
  | cons {choice : Choice} {choices : List Choice} {arguments later : List (List Char)} :
    choice.Written hyphenAllowed arguments → WrittenAll hyphenAllowed choices later →
    WrittenAll hyphenAllowed (choice :: choices) (arguments ++ later)

/-! ## Values -/

variable {text : List Char}

theorem exists_mem_of_find? {α : Type} {table : List (α × String)} {value : α}
    (h : (table.find? (·.2.toList == text)).map (·.1) = some value) :
    ∃ name, (value, name) ∈ table ∧ text = name.toList := by
  obtain ⟨⟨_, name⟩, hfound, rfl⟩ := Option.map_eq_some_iff.mp h
  have hname := List.find?_some hfound
  exact ⟨name, List.mem_of_find?_eq_some hfound, (beq_iff_eq.mp hname).symm⟩

/-- An option whose values stand in a table takes the names that are looked up there. -/
theorem hasValue_iff_of_table {α : Type} {table : List (α × String)} (option : α → Choice)
    {value : α} (hread : (option value).HasValue text →
      (table.find? (·.2.toList == text)).map (·.1) = some value)
    (htable : ∀ entry ∈ table, (option entry.1).HasValue entry.2.toList) :
    (option value).HasValue text ↔
      (table.find? (·.2.toList == text)).map (·.1) = some value := by
  refine ⟨hread, fun h => ?_⟩
  obtain ⟨name, hmem, rfl⟩ := exists_mem_of_find? h
  exact htable _ hmem

theorem hasValue_color_iff {value : ColorChoice} :
    (color value).HasValue text ↔ colorOfName? text = some value := by
  refine hasValue_iff_of_table color (fun h => by cases h <;> rfl) ?_
  simp only [List.forall_mem_cons]
  exact ⟨.auto, .always, .never, nofun⟩

theorem hasValue_format_iff {value : Format} :
    (format value).HasValue text ↔ formatOfName? text = some value := by
  refine hasValue_iff_of_table format (fun h => by cases h <;> rfl) ?_
  simp only [List.forall_mem_cons]
  exact ⟨.text, .json, nofun⟩

theorem hasValue_rounding_iff {value : RoundingPolicy} :
    (rounding value).HasValue text ↔ policyOfName? text = some value := by
  refine hasValue_iff_of_table rounding (fun h => by cases h <;> rfl) ?_
  simp only [List.forall_mem_cons]
  exact ⟨.everyStep, .finalOnly, nofun⟩

theorem hasValue_precision_iff {value : Fin (Settings.maxPrecision + 1)} :
    (precision value).HasValue text ↔ precisionOfText? text = some value.val := by
  constructor
  · rintro (_ | _ | _ | _ | _ | _ | _ | ⟨hsign, hne, hdigits, hvalue⟩)
    rename_i sign digits
    have hle : value.val ≤ Settings.maxPrecision := Nat.le_of_lt_succ value.isLt
    have hall : digits.all Char.isDigit = true := List.all_eq_true.mpr hdigits
    rcases hsign with rfl | rfl | ⟨rfl, hzero⟩
    · obtain ⟨d, rest, rfl⟩ := List.exists_cons_of_ne_nil hne
      have hd := hdigits d (by simp)
      have hplus : d ≠ '+' := by rintro rfl; cases hd
      have hminus : d ≠ '-' := by rintro rfl; cases hd
      simp [precisionOfText?, hplus, hminus, hvalue, hle, hall]
    · simp [precisionOfText?, hvalue, hle, hall, hne]
    · simp [precisionOfText?, hvalue, hall, hne, hzero]
  · intro h
    unfold precisionOfText? at h
    split at h
    rename_i negative digits hsplit
    simp only [Option.ite_none_left_eq_some, Option.ite_none_right_eq_some, Option.some.injEq,
      Bool.or_eq_true, Bool.and_eq_true, List.isEmpty_iff, Bool.not_eq_true', not_or,
      decide_eq_true_eq, beq_iff_eq, Bool.not_eq_false, List.all_eq_true] at h
    obtain ⟨⟨hne, hdigits⟩, ⟨-, hnegative⟩, hvalue⟩ := h
    split at hsplit
    · cases hsplit
      change HasValue _ (['+'] ++ digits)
      exact .precision (Or.inr (Or.inl rfl)) hne hdigits hvalue
    · cases hsplit
      have hzero : value.val = 0 := by simpa [hvalue] using hnegative
      change HasValue _ (['-'] ++ digits)
      exact .precision (Or.inr (Or.inr ⟨rfl, hzero⟩)) hne hdigits hvalue
    · cases hsplit
      change HasValue _ ([] ++ text)
      exact .precision (Or.inl rfl) hne hdigits hvalue

end Choice

/-! ## What is given -/

namespace Given

/-- Gives an option the value that is chosen for it. -/
def give (g : Given) : Choice → Given
  | .quiet => { g with quiet := true }
  | .logJson => { g with logJson := true }
  | .color value => { g with color := some value }
  | .format value => { g with format := some value }
  | .rounding value => { g with rounding := some value }
  | .precision value => { g with precision := some value.val }

/-- These choices, and nothing else, are given. -/
structure IsOf (g : Given) (choices : List Choice) : Prop where
  verbose : g.verbose = 0
  quiet : g.quiet = true ↔ .quiet ∈ choices
  logJson : g.logJson = true ↔ .logJson ∈ choices
  color : ∀ value, g.color = some value ↔ .color value ∈ choices
  format : ∀ value, g.format = some value ↔ .format value ∈ choices
  rounding : ∀ value, g.rounding = some value ↔ .rounding value ∈ choices
  precision : ∀ value, g.precision = some value ↔
    ∃ places, .precision places ∈ choices ∧ places.val = value

variable {g g' : Given} {choices choices' : List Choice} {choice : Choice}

theorem isOf_nothing : nothing.IsOf [] := by
  constructor <;> simp [nothing]

theorem not_mem_of_option (hnew : choice.option ∉ choices.map Choice.option) (other : Choice)
    (hother : other.option = choice.option) : other ∉ choices :=
  fun hmem => hnew (hother ▸ List.mem_map_of_mem hmem)

theorem IsOf.give (h : g.IsOf choices) (hnew : choice.option ∉ choices.map Choice.option) :
    (g.give choice).IsOf (choices ++ [choice]) := by
  have hother := not_mem_of_option hnew
  cases choice <;> constructor <;>
    simp [Given.give, h.verbose, h.quiet, h.logJson, h.format, h.rounding, h.precision, h.color,
      eq_comm]
  case color.color => exact fun value hmem => absurd hmem (hother (.color value) rfl)
  case format.format => exact fun value hmem => absurd hmem (hother (.format value) rfl)
  case rounding.rounding => exact fun value hmem => absurd hmem (hother (.rounding value) rfl)
  case precision.precision => exact fun _ value hmem => absurd hmem (hother (.precision value) rfl)

theorem eq_none_of_iff {α : Type} {a : Option α} {P : α → Prop} (h : ∀ v, a = some v ↔ P v)
    (hnot : ∀ v, ¬P v) : a = none :=
  Option.eq_none_iff_forall_ne_some.mpr fun v heq => hnot v ((h v).mp heq)

/-- An option takes its value if it has none yet. -/
theorem IsOf.set_eq (h : g.IsOf choices) (hnew : choice.option ∉ choices.map Choice.option)
    {setting : Setting} {text : List Char} (hoption : choice.option = .inr setting)
    (hvalue : choice.HasValue text) : g.set setting text = .ok (g.give choice) := by
  have hother := not_mem_of_option hnew
  cases choice with
  | quiet => cases hoption
  | logJson => cases hoption
  | color value =>
    cases hoption
    have hfree : g.color = none := eq_none_of_iff h.color fun other => hother (.color other) rfl
    simp [set, hfree, Choice.hasValue_color_iff.mp hvalue, orInvalid, Except.map, Given.give]
  | format value =>
    cases hoption
    have hfree : g.format = none := eq_none_of_iff h.format fun other => hother (.format other) rfl
    simp [set, hfree, Choice.hasValue_format_iff.mp hvalue, orInvalid, Except.map, Given.give]
  | rounding value =>
    cases hoption
    have hfree : g.rounding = none := eq_none_of_iff h.rounding fun other => hother (.rounding other) rfl
    simp [set, hfree, Choice.hasValue_rounding_iff.mp hvalue, orInvalid, Except.map, Given.give]
  | precision value =>
    cases hoption
    have hfree : g.precision = none := by
      refine eq_none_of_iff h.precision ?_
      rintro other ⟨places, hmem, -⟩
      exact hother (.precision places) rfl hmem
    simp [set, hfree, Choice.hasValue_precision_iff.mp hvalue, Given.give]

theorem exists_isOf (honce : (choices.map Choice.option).Nodup) : ∃ g : Given, g.IsOf choices := by
  induction choices using List.reverseRecOn with
  | nil => exact ⟨nothing, isOf_nothing⟩
  | append_singleton choices choice ih =>
    rw [List.map_append, List.nodup_append] at honce
    obtain ⟨g, hg⟩ := ih honce.1
    exact ⟨_, hg.give fun hmem => honce.2.2 _ hmem _ (by simp) rfl⟩

/-- What is given depends only on what the choices are. -/
theorem IsOf.unique (h : g.IsOf choices) (h' : g'.IsOf choices')
    (hsame : ∀ choice, choice ∈ choices ↔ choice ∈ choices') : g = g' := by
  have hverbose := h.verbose.trans h'.verbose.symm
  have hquiet : g.quiet = g'.quiet := Bool.eq_iff_iff.mpr (by rw [h.quiet, h'.quiet, hsame])
  have hlogJson : g.logJson = g'.logJson :=
    Bool.eq_iff_iff.mpr (by rw [h.logJson, h'.logJson, hsame])
  have hcolor : g.color = g'.color := Option.ext fun v => by rw [h.color, h'.color, hsame]
  have hformat : g.format = g'.format := Option.ext fun v => by rw [h.format, h'.format, hsame]
  have hrounding : g.rounding = g'.rounding :=
    Option.ext fun v => by rw [h.rounding, h'.rounding, hsame]
  have hprecision : g.precision = g'.precision :=
    Option.ext fun v => by simp only [h.precision, h'.precision, hsame]
  cases g
  cases g'
  simp_all

theorem or_eq_some_iff {α : Type} {a b : Option α} {P Q : α → Prop}
    (ha : ∀ v, a = some v ↔ P v) (hb : ∀ v, b = some v ↔ Q v) (hdisjoint : ∀ v w, P v → ¬Q w)
    (v : α) : a.or b = some v ↔ P v ∨ Q v := by
  rw [Option.or_eq_some_iff, ha, hb]
  constructor
  · rintro (h | ⟨-, h⟩)
    · exact Or.inl h
    · exact Or.inr h
  · rintro (h | h)
    · exact Or.inl h
    · exact Or.inr ⟨eq_none_of_iff ha fun w hw => hdisjoint w v hw h, h⟩

/-- An option may be given on either side. -/
theorem IsOf.completedBy {after before : Given} (ha : after.IsOf choices)
    (hb : before.IsOf choices')
    (hdisjoint : ∀ choice ∈ choices, ∀ other ∈ choices', choice.option ≠ other.option) :
    (after.completedBy before).IsOf (choices ++ choices') := by
  constructor
  · simp [Given.completedBy, ha.verbose, hb.verbose]
  · simp [Given.completedBy, ha.quiet, hb.quiet]
  · simp [Given.completedBy, ha.logJson, hb.logJson]
  · simp only [List.mem_append]
    exact or_eq_some_iff ha.color hb.color fun v w hv hw => hdisjoint _ hv _ hw rfl
  · simp only [List.mem_append]
    exact or_eq_some_iff ha.format hb.format fun v w hv hw => hdisjoint _ hv _ hw rfl
  · simp only [List.mem_append]
    exact or_eq_some_iff ha.rounding hb.rounding fun v w hv hw => hdisjoint _ hv _ hw rfl
  · simp only [List.mem_append, or_and_right, exists_or]
    refine or_eq_some_iff ha.precision hb.precision ?_
    rintro - - ⟨v, hv, -⟩ ⟨w, hw, -⟩
    exact hdisjoint _ hv _ hw rfl

end Given

/-! ## Configurations -/

/-- A variable that is set has a value of its option. -/
structure Environment.IsValid (env : Environment) : Prop where
  rounding : ∀ text ∈ env.rounding, ∃ value, (Choice.rounding value).HasValue text
  precision : ∀ text ∈ env.precision, ∃ value, (Choice.precision value).HasValue text

/-- The value that counts for an option: the one that is chosen, or else that of its variable, or
else the one that it has by default. -/
def Counts {α : Type} (choices : List Choice) (option : α → Choice)
    (environment : Option (List Char)) (default value : α) : Prop :=
  option value ∈ choices ∨ (∀ other, option other ∉ choices) ∧
    match environment with
    | some text => (option value).HasValue text
    | none => value = default

/-- Everything is as the choices and the environment have it. -/
structure Configuration.Follows (c : Configuration) (env : Environment) (choices : List Choice) :
    Prop where
  verbosity : c.verbosity = if .quiet ∈ choices then .quiet else .normal
  logJson : c.logJson = decide (.logJson ∈ choices)
  color : Counts choices .color none .auto c.color
  format : Counts choices .format none .text c.format
  rounding : Counts choices .rounding env.rounding .everyStep c.settings.policy
  precision : ∃ value, Counts choices .precision env.precision 1 value ∧
    c.settings.precision = value.val

variable {env : Environment} {g : Given} {choices : List Choice}

theorem counts_default {α : Type} {option : α → Choice} {given : Option α} (default : α)
    (hgiven : ∀ value, given = some value ↔ option value ∈ choices) :
    Counts choices option none default (given.getD default) := by
  cases given with
  | some value => exact Or.inl ((hgiven value).mp rfl)
  | none => exact Or.inr ⟨fun other hmem => (nomatch (hgiven other).mpr hmem), rfl⟩

theorem counts_environment {α : Type} {option : α → Choice} {given : Option α}
    {environment : Option (List Char)} {read : List Char → Option α} (default : α)
    (hgiven : ∀ value, given = some value ↔ option value ∈ choices)
    (hread : ∀ value text, (option value).HasValue text → read text = some value)
    (hvalid : ∀ text ∈ environment, ∃ value, (option value).HasValue text) :
    Counts choices option environment default
      ((given.or (environment.bind read)).getD default) := by
  cases environment with
  | none => simpa using counts_default default hgiven
  | some text =>
    obtain ⟨value, hvalue⟩ := hvalid text rfl
    cases given with
    | some value => exact Or.inl ((hgiven value).mp rfl)
    | none =>
      refine Or.inr ⟨fun other hmem => (nomatch (hgiven other).mpr hmem), ?_⟩
      simpa [hread value text hvalue] using hvalue

theorem precision_withPrecision (s : Settings) (value : Fin (Settings.maxPrecision + 1)) :
    (s.withPrecision value).precision = value.val :=
  Nat.min_eq_left (Nat.le_of_lt_succ value.isLt)

theorem Given.IsOf.exists_precision (h : g.IsOf choices) (henv : env.IsValid) :
    ∃ value, Counts choices .precision env.precision 1 value ∧
      (Configuration.ofGiven env g).settings.precision = value.val := by
  dsimp only [Configuration.ofGiven]
  cases hgiven : g.precision with
  | some given =>
    obtain ⟨value, hmem, rfl⟩ := (h.precision given).mp hgiven
    exact ⟨value, Or.inl hmem, precision_withPrecision _ value⟩
  | none =>
    have hnone : ∀ other, .precision other ∉ choices := by
      intro other hmem
      rw [(h.precision other).mpr ⟨other, hmem, rfl⟩] at hgiven
      cases hgiven
    cases hset : env.precision with
    | none => exact ⟨1, Or.inr ⟨hnone, rfl⟩, rfl⟩
    | some text =>
      obtain ⟨value, hvalue⟩ := henv.precision text hset
      refine ⟨value, Or.inr ⟨hnone, hvalue⟩, ?_⟩
      simp [Choice.hasValue_precision_iff.mp hvalue, precision_withPrecision]

theorem Given.IsOf.follows (h : g.IsOf choices) (henv : env.IsValid) :
    (Configuration.ofGiven env g).Follows env choices where
  verbosity := by simp [Configuration.ofGiven, Verbosity.ofFlags, h.verbose, h.quiet]
  logJson := by simp [Configuration.ofGiven, ← h.logJson]
  color := counts_default .auto h.color
  format := counts_default .text h.format
  rounding :=
    counts_environment .everyStep h.rounding (fun _ _ => Choice.hasValue_rounding_iff.mp)
      henv.rounding
  precision := h.exists_precision henv

end PocketCalculator.CommandLine
