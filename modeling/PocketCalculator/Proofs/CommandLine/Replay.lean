import Mathlib.Data.Bool.AllAny
import PocketCalculator.Proofs.CommandLine.Evaluation
import PocketCalculator.Proofs.Keypad.Retyped
import PocketCalculator.Proofs.Report.Records

/-!
# Replaying from the command line

Keys are read before the first of them is pressed, so that one unknown character keeps all of them
from being pressed. Otherwise the keypad that they lead to is reported, and the exit code tells
what it shows in the end.
-/
namespace PocketCalculator

namespace Key

/-- A sequence of keys may have this character in it. -/
def IsBlankOrKey (c : Char) : Prop := Text.isWhiteSpace c = true ∨ (ofChar? c).isSome = true

instance : DecidablePred IsBlankOrKey := fun _ => inferInstanceAs (Decidable (_ ∨ _))

def nonBlank (text : List Char) : List Char := text.filter fun c => !Text.isWhiteSpace c

variable {text : List Char} {c : Char}

theorem readSequence_congr {text' : List Char} (h : nonBlank text = nonBlank text') :
    readSequence text = readSequence text' := by
  unfold nonBlank at h
  rw [readSequence, h, readSequence]

/-- White space is skipped, and any other known character is read as its key. -/
theorem readSequence_cons_cases (hc : IsBlankOrKey c) (text : List Char) :
    (nonBlank (c :: text) = nonBlank text ∧ readSequence (c :: text) = readSequence text) ∨
      ∃ key, ofChar? c = some key ∧ nonBlank (c :: text) = c :: nonBlank text ∧
        readSequence (c :: text) = (readSequence text).map (key :: ·) := by
  cases hblank : Text.isWhiteSpace c with
  | true =>
    have hskip : nonBlank (c :: text) = nonBlank text := by simp [nonBlank, hblank]
    exact Or.inl ⟨hskip, readSequence_congr hskip⟩
  | false =>
    have hkey : (ofChar? c).isSome = true := by simpa [IsBlankOrKey, hblank] using hc
    obtain ⟨key, hkey⟩ := Option.isSome_iff_exists.mp hkey
    have hfilter : nonBlank (c :: text) = c :: nonBlank text := by simp [nonBlank, hblank]
    refine Or.inr ⟨key, hkey, hfilter, ?_⟩
    unfold nonBlank at hfilter
    rw [readSequence, hfilter, List.mapM_cons, hkey]
    rfl

theorem readSequence_unknown (hc : ¬IsBlankOrKey c) : readSequence (c :: text) = .error c := by
  have hblank : Text.isWhiteSpace c = false := by
    simpa using fun h => hc (Or.inl h)
  have hkey : ofChar? c = none := by
    simpa using fun h => hc (Or.inr h)
  simp [readSequence, hblank, hkey]
  rfl

theorem exists_readSequence (h : ∀ c ∈ text, IsBlankOrKey c) :
    ∃ keys, readSequence text = .ok keys ∧ (nonBlank text).map ofChar? = keys.map some := by
  induction text with
  | nil => exact ⟨[], rfl, rfl⟩
  | cons c text ih =>
    obtain ⟨keys, hread, hkeys⟩ := ih fun d hd => h d (by simp [hd])
    obtain ⟨hskip, hstep⟩ | ⟨key, hkey, hkeep, hstep⟩ :=
      readSequence_cons_cases (h c (by simp)) text
    · exact ⟨keys, hstep.trans hread, by rwa [hskip]⟩
    · refine ⟨key :: keys, by rw [hstep, hread]; rfl, ?_⟩
      rw [hkeep, List.map_cons, List.map_cons, hkey, hkeys]

theorem readSequence_of_unknown {before after : List Char} (h : ∀ d ∈ before, IsBlankOrKey d)
    (hc : ¬IsBlankOrKey c) : readSequence (before ++ c :: after) = .error c := by
  induction before with
  | nil => exact readSequence_unknown hc
  | cons d before ih =>
    have hlater := ih fun e he => h e (by simp [he])
    obtain ⟨-, hstep⟩ | ⟨key, -, -, hstep⟩ :=
      readSequence_cons_cases (h d (by simp)) (before ++ c :: after)
    · exact hstep.trans hlater
    · rw [List.cons_append, hstep, hlater]
      rfl

end Key

/-- Lines that tell the input and what the display shows, and as a record the open groups too. -/
def Keypad.IsToldBy (k : Keypad) (style : ReportStyle) (lines : List (List Char)) : Prop :=
  match style.format with
  | .text =>
    lines = [style.paint ReportStyle.dim "input:".toList ++ "  ".toList ++ k.input,
      style.paint ReportStyle.dim "output:".toList ++ ' ' :: k.output.text]
  | .json => ∃ line members, lines = [line] ∧ Json.IsLineOf line (.object members) ∧
      members.lookup "input".toList = some (.string k.input) ∧
      members.lookup "output".toList = some (.string k.output.text) ∧
      members.lookup "open_parens".toList = some (.number k.openGroups)

theorem KeysRecord.exists_isToldBy (r : KeysRecord) (style : ReportStyle) :
    ∃ lines, r.keypad.IsToldBy style lines ∧
      (r.report style).out = if style.quiet then [] else lines := by
  unfold Keypad.IsToldBy report
  cases style.format with
  | text => exact ⟨_, rfl, rfl⟩
  | json =>
    have hline := Json.isLineOf_render r.toJson
    rw [r.toJson_eq] at hline
    refine ⟨_, ⟨_, _, rfl, hline, rfl, rfl, ?_⟩, ?_⟩
    · cases r.keypad.output <;> rfl
    · rw [r.toJson_eq]
      rfl

theorem KeysRecord.passed_iff (r : KeysRecord) :
    r.passed = true ↔ ∀ kind, r.keypad.output ≠ .fault kind := by
  unfold passed fault?
  cases r.keypad.output <;> simp

/-- Known keys are all pressed, and what they lead to is recorded. -/
theorem Keypad.exists_replay {text : List Char} (h : ∀ c ∈ text, Key.IsBlankOrKey c)
    (s : Settings) :
    ∃ keys keypad, (Key.nonBlank text).map Key.ofChar? = keys.map some ∧
      empty.pressAll s keys = .ok keypad ∧
      ∀ text', Key.nonBlank text' = Key.nonBlank text → replay s text' = .ok keypad := by
  obtain ⟨keys, hread, hkeys⟩ := Key.exists_readSequence h
  obtain ⟨keypad, hpress, -⟩ := WellTyped.empty.exists_pressAll (Nat.le_refl s.precision) keys
  refine ⟨keys, keypad, hkeys, hpress, fun text' htext => ?_⟩
  rw [replay, Key.readSequence_congr htext, hread]
  dsimp only
  rw [hpress]
  rfl

namespace Session

variable {s : Settings} {text : List Char}

theorem replay_of_error {x : Char} (h : Keypad.replay s text = .error (.unknownKey x))
    (style : ReportStyle) : replay s style text = ⟨⟨[], []⟩, .error (.unknownKey x)⟩ := by
  rw [replay, h]
  rfl

theorem replay_of_ok {keypad : Keypad} (h : Keypad.replay s text = .ok keypad)
    (style : ReportStyle) :
    let record : KeysRecord := ⟨text, keypad⟩
    replay s style text =
      ⟨record.report style, .ok ⟨1, if record.passed then 0 else 1⟩⟩ := by
  intro record
  rw [replay, h]
  change after (record.report style) (ended (.ok (Summary.zero.record record.passed))) = _
  cases record.passed <;> simp [after, ended, Summary.zero, Summary.record]

end Session

namespace CommandLine

/-- A replay on the command line presses all keys or none. At the first character that is neither a
key nor white space it ends with an error, whatever stands before that, and nothing else is written,
log lines aside. Otherwise the keys are pressed in order on an empty keypad; the keypad that they
lead to is told unless the program is quiet, and the exit code is zero if it does not show an error.
White space between the keys makes no difference to this. -/
theorem replays_are_all_or_nothing {env : Environment} {arguments : List (List Char)}
    {c : Configuration} {text : List Char} (hparse : parse env arguments = .ok (c, .keys text))
    (colorForced : Bool) (input : List UInt8) :
    (∀ before x after, text = before ++ x :: after → (∀ y ∈ before, Key.IsBlankOrKey y) →
      ¬Key.IsBlankOrKey x →
      run env colorForced arguments input = ⟨1, [], unlines ["Error: ".toList ++
        "Invalid argument: unknown key ".toList ++ "'".toList ++ [x] ++ "'".toList]⟩) ∧
    ((∀ y ∈ text, Key.IsBlankOrKey y) →
      ∃ keys keypad, (Key.nonBlank text).map Key.ofChar? = keys.map some ∧
        Keypad.empty.pressAll c.settings keys = .ok keypad ∧
        ∀ arguments' text', parse env arguments' = .ok (c, .keys text') →
          Key.nonBlank text' = Key.nonBlank text →
          let outcome := run env colorForced arguments' input
          (∃ lines, keypad.IsToldBy (c.style colorForced) lines ∧
            outcome.out = if c.verbosity.isQuiet then [] else unlines lines) ∧
          (outcome.exitCode = 0 ↔ ∀ kind, keypad.output ≠ .fault kind)) := by
  constructor
  · intro before x after htext hbefore hx
    have hreplay : Keypad.replay c.settings text = .error (.unknownKey x) := by
      rw [Keypad.replay, htext, Key.readSequence_of_unknown hbefore hx]
    rw [run_of_parse hparse, session, Session.replay_of_error hreplay]
    simp only [List.append_assoc]
    rfl
  · intro hknown
    obtain ⟨keys, keypad, hkeys, hpress, hreplay⟩ := Keypad.exists_replay hknown c.settings
    refine ⟨keys, keypad, hkeys, hpress, fun arguments' text' hparse' htext => ?_⟩
    let record : KeysRecord := ⟨text', keypad⟩
    obtain ⟨lines, htold, hout⟩ := record.exists_isToldBy (c.style colorForced)
    rw [run_of_parse hparse', session, Session.replay_of_ok (hreplay text' htext),
      outcomeOf_of_result rfl]
    refine ⟨⟨lines, htold, ?_⟩, ?_⟩
    · change unlines (record.report (c.style colorForced)).out = _
      rw [hout]
      change unlines (if c.verbosity.isQuiet then [] else lines) = _
      split <;> rfl
    · rw [← record.passed_iff]
      cases record.passed <;> simp

/-- An unknown key after an error that is shown, an error that is typed away again, with a report and
without, and a group that is left open. -/
theorem replays_are_all_or_nothing_error_typed_away :
    let env : Environment := ⟨none, none⟩
    let typedAway := "5/0 = BB+\u30002=".toList
    let reported := run env false ["keys".toList, typedAway] []
    let quiet := run env false ["-q".toList, "keys".toList, typedAway] []
    let leftOpen := run env false ["--format=json".toList, "keys".toList, "5 (".toList] []
    run env false ["keys".toList, "5/0=?8!".toList] [] =
        ⟨1, [], "Error: Invalid argument: unknown key '?'\n".toList⟩ ∧
      (reported.out = "input:  5+2\noutput: 7\n".toList ∧ reported.exitCode = 0) ∧
      (quiet.out = [] ∧ quiet.exitCode = 0) ∧
      (∃ line members, leftOpen.out = line ++ ['\n'] ∧ Json.IsLineOf line (.object members) ∧
        members.lookup "input".toList = some (.string "5(".toList) ∧
        members.lookup "output".toList = some (.string []) ∧
        members.lookup "open_parens".toList = some (.number 1)) ∧ leftOpen.exitCode = 0 := by
  intro env typedAway reported quiet leftOpen
  let c : Configuration := ⟨.normal, .auto, .text, false, Settings.default⟩
  -- The keys of a text are unique, so what pressing them leads to can be worked out beforehand.
  have htold : ∀ (c : Configuration) (arguments : List (List Char)) (text : List Char)
      (keys : List Key) (keypad : Keypad), parse env arguments = .ok (c, .keys text) →
      (∀ y ∈ text, Key.IsBlankOrKey y) → (Key.nonBlank text).map Key.ofChar? = keys.map some →
      Keypad.empty.pressAll c.settings keys = .ok keypad →
      (∃ lines, keypad.IsToldBy (c.style false) lines ∧
        (run env false arguments []).out = if c.verbosity.isQuiet then [] else unlines lines) ∧
      ((run env false arguments []).exitCode = 0 ↔ ∀ kind, keypad.output ≠ .fault kind) := by
    intro c arguments text keys keypad hparse hknown hkeys hpress
    obtain ⟨-, hpressed⟩ := replays_are_all_or_nothing hparse false []
    obtain ⟨keys', keypad', hkeys', hpress', hrun⟩ := hpressed hknown
    obtain rfl : keys = keys' := (Option.some_injective _).list_map (hkeys.symm.trans hkeys')
    obtain rfl : keypad = keypad' := Except.ok.inj (hpress.symm.trans hpress')
    exact hrun arguments text hparse rfl
  have hknown : ∀ y ∈ typedAway, Key.IsBlankOrKey y :=
    List.all_iff_forall_prop.mp (by decide +kernel)
  have hkeys : (Key.nonBlank typedAway).map Key.ofChar? = [Key.digit 5, .operator .divide,
      .digit 0, .equals, .backspace, .backspace, .operator .add, .digit 2, .equals].map some := by
    decide +kernel
  refine ⟨?_, ?_, ?_, ?_⟩
  · have hparse : parse env ["keys".toList, "5/0=?8!".toList] = .ok (c, .keys "5/0=?8!".toList) := by
      decide +kernel
    obtain ⟨hrefused, -⟩ := replays_are_all_or_nothing hparse false []
    exact (hrefused "5/0=".toList '?' "8!".toList rfl
      (List.all_iff_forall_prop.mp (by decide +kernel)) (by decide +kernel)).trans
        (by decide +kernel)
  · obtain ⟨⟨lines, rfl, hout⟩, hcode⟩ := htold c ["keys".toList, typedAway] typedAway _
      ⟨"5+2".toList, .value "7".toList, 0⟩ (by decide +kernel) hknown hkeys (by decide +kernel)
    exact ⟨hout.trans (by decide +kernel), hcode.mpr nofun⟩
  · obtain ⟨⟨lines, -, hout⟩, hcode⟩ := htold { c with verbosity := .quiet }
      ["-q".toList, "keys".toList, typedAway] typedAway _ ⟨"5+2".toList, .value "7".toList, 0⟩
      (by decide +kernel) hknown hkeys (by decide +kernel)
    exact ⟨hout, hcode.mpr nofun⟩
  · obtain ⟨⟨lines, ⟨line, members, rfl, hline, hmembers⟩, hout⟩, hcode⟩ :=
      htold { c with format := .json } ["--format=json".toList, "keys".toList, "5 (".toList]
        "5 (".toList [.digit 5, .openParen] ⟨"5(".toList, .nothing, 1⟩ (by decide +kernel)
        (List.all_iff_forall_prop.mp (by decide +kernel)) (by decide +kernel) (by decide +kernel)
    exact ⟨⟨line, members, hout.trans (List.flatMap_singleton ..), hline, hmembers⟩,
      hcode.mpr nofun⟩

end CommandLine

end PocketCalculator
