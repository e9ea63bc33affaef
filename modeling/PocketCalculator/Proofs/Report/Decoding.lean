import PocketCalculator.Proofs.Decimal.Plain
import PocketCalculator.Report.Json

/-!
# Reading JSON

A reader for strings, natural numbers and objects, with white space between the tokens and every
way of writing a character but a pair of surrogates. It refuses the rest of JSON, so what it reads
is what any reader of JSON makes of the text. Whatever is written is read back, and is printable
throughout.
-/
namespace PocketCalculator.Json

/-! ## The reader -/

/-- What has been read, and the text after it. -/
abbrev Reading (α : Type) : Type := Option (α × List Char)

def Reading.andThen {α β : Type} (r : Reading α) (f : α → List Char → Reading β) : Reading β :=
  match r with
  | some (a, rest) => f a rest
  | none => none

def Reading.map {α β : Type} (f : α → β) (r : Reading α) : Reading β :=
  r.andThen fun a rest => some (f a, rest)

def isBlank (c : Char) : Bool := c == ' ' || c == '\t' || c == '\n' || c == '\r'

def skipBlanks (text : List Char) : List Char := text.dropWhile isBlank

def hexDigit? (c : Char) : Option Nat :=
  if c.isDigit then some (c.toNat - '0'.toNat)
  else if 'a' ≤ c ∧ c ≤ 'f' then some (c.toNat - 'a'.toNat + 10)
  else if 'A' ≤ c ∧ c ≤ 'F' then some (c.toNat - 'A'.toNat + 10)
  else none

/-- The character of four hexadecimal digits, unless they are half of a pair. -/
def ofHexDigits? (a b c d : Char) : Option Char := do
  let unit := (((← hexDigit? a) * 16 + (← hexDigit? b)) * 16 + (← hexDigit? c)) * 16 +
    (← hexDigit? d)
  if unit.isValidChar then some (Char.ofNat unit) else none

/-- The character that another one stands for after a backslash. -/
def ofEscape? : Char → Option Char
  | '"' => some '"'
  | '\\' => some '\\'
  | '/' => some '/'
  | 'b' => some '\x08'
  | 'f' => some '\x0c'
  | 'n' => some '\n'
  | 'r' => some '\r'
  | 't' => some '\t'
  | _ => none

/-- A string after its opening quotation mark. -/
def readString : List Char → Reading (List Char)
  | [] => none
  | '"' :: rest => some ([], rest)
  | ['\\'] => none
  | '\\' :: 'u' :: a :: b :: c :: d :: rest =>
    match ofHexDigits? a b c d with
    | some char => (readString rest).map (char :: ·)
    | none => none
  | '\\' :: escape :: rest =>
    match ofEscape? escape with
    | some char => (readString rest).map (char :: ·)
    | none => none
  | c :: rest => if c.toNat < 0x20 then none else (readString rest).map (c :: ·)

/-- Digits without needless zeros. -/
def readNumber (text : List Char) : Reading Nat :=
  let digits := text.takeWhile Char.isDigit
  if digits = [] ∨ digits.head? = some '0' ∧ digits ≠ ['0'] then none
  else some (Nat.ofDigitChars 10 digits 0, text.dropWhile Char.isDigit)

mutual

def readValue : (fuel : Nat) → List Char → Reading Json
  | 0, _ => none
  | fuel + 1, text =>
    match skipBlanks text with
    | '"' :: rest => (readString rest).map string
    | '\x7b' :: rest =>
      match skipBlanks rest with
      | '\x7d' :: rest => some (object [], rest)
      | rest => (readMembers fuel rest).map object
    | rest => (readNumber rest).map number

/-- The members of an object, of which there is one at least, and its end. -/
def readMembers : (fuel : Nat) → List Char → Reading (List (List Char × Json))
  | 0, _ => none
  | fuel + 1, text =>
    match skipBlanks text with
    | '"' :: rest => (readString rest).andThen fun name rest =>
      match skipBlanks rest with
      | ':' :: rest => (readValue fuel rest).andThen fun value rest =>
        match skipBlanks rest with
        | '\x7d' :: rest => some ([(name, value)], rest)
        | ',' :: rest => (readMembers fuel rest).map ((name, value) :: ·)
        | _ => none
      | _ => none
    | _ => none

end

/-- The value that a text is written for. Each call but the first comes after a character that the
one before has read, so there are never more of them at once than this. -/
def decode (text : List Char) : Option Json :=
  match readValue (text.length + 1) text with
  | some (value, rest) => if skipBlanks rest = [] then some value else none
  | none => none

/-! ## Strings -/

/-- How a character is written: after a backslash, by its code, or as itself. -/
theorem escape_cases (c : Char) :
    (∃ e, escape c = ['\\', e] ∧ ofEscape? e = some c ∧ 0x20 ≤ e.toNat) ∨
      (escape c = hexEscape c.toNat ∧ c.toNat < 0x20) ∨
      (escape c = [c] ∧ c ≠ '"' ∧ c ≠ '\\' ∧ 0x20 ≤ c.toNat) := by
  unfold escape
  split_ifs with hquote hbackslash h₁ h₂ h₃ h₄ h₅ hcontrol
  · exact Or.inl ⟨'"', rfl, by rw [hquote]; rfl, by decide⟩
  · exact Or.inl ⟨'\\', rfl, by rw [hbackslash]; rfl, by decide⟩
  · exact Or.inl ⟨'b', rfl, by rw [h₁]; rfl, by decide⟩
  · exact Or.inl ⟨'t', rfl, by rw [h₂]; rfl, by decide⟩
  · exact Or.inl ⟨'n', rfl, by rw [h₃]; rfl, by decide⟩
  · exact Or.inl ⟨'f', rfl, by rw [h₄]; rfl, by decide⟩
  · exact Or.inl ⟨'r', rfl, by rw [h₅]; rfl, by decide⟩
  · exact Or.inr (Or.inl ⟨rfl, hcontrol⟩)
  · exact Or.inr (Or.inr ⟨rfl, hquote, hbackslash, Nat.le_of_not_lt hcontrol⟩)

theorem ofHexDigits?_of_lt {code : Nat} (h : code < 0x20) :
    ofHexDigits? '0' '0' (Nat.digitChar (code / 16)) (Nat.digitChar (code % 16)) =
      some (Char.ofNat code) := by
  revert code
  decide

theorem readString_quote (rest : List Char) : readString ('"' :: rest) = some ([], rest) := by
  simp [readString]

theorem readString_escape (c : Char) (rest : List Char) :
    readString (escape c ++ rest) = (readString rest).map (c :: ·) := by
  rcases escape_cases c with ⟨e, he, hchar, -⟩ | ⟨hcode, hcontrol⟩ | ⟨hplain, hquote, hslash, hle⟩
  · have hunit : e ≠ 'u' := by
      rintro rfl
      cases hchar
    rw [he, List.cons_append, List.cons_append, List.nil_append, readString, hchar]
    · exact fun _ _ _ _ _ hu _ => hunit hu
  · rw [hcode, hexEscape]
    simp only [List.cons_append, List.nil_append, readString, ofHexDigits?_of_lt hcontrol,
      Char.ofNat_toNat]
  · -- No pattern but the last is for a character that is written as itself.
    rw [hplain, List.cons_append, List.nil_append, readString, if_neg (Nat.not_lt.mpr hle)]
    · exact hquote
    · exact fun h _ => hslash h
    · exact fun _ _ _ _ _ h _ => hslash h
    · exact fun _ _ h _ => hslash h

theorem readString_quoted (text rest : List Char) :
    readString (text.flatMap escape ++ '"' :: rest) = some (text, rest) := by
  induction text with
  | nil => exact readString_quote rest
  | cons c text ih =>
    rw [List.flatMap_cons, List.append_assoc, readString_escape, ih]
    rfl

theorem quote_append (text rest : List Char) :
    quote text ++ rest = '"' :: (text.flatMap escape ++ '"' :: rest) := by
  simp [quote]

/-! ## Numbers -/

/-- What follows a value does not continue a number. -/
def EndsNumber (rest : List Char) : Prop := ∀ c ∈ rest.head?, c.isDigit = false

theorem takeWhile_isDigit_append {digits rest : List Char}
    (hdigits : ∀ c ∈ digits, c.isDigit = true) (hrest : EndsNumber rest) :
    (digits ++ rest).takeWhile Char.isDigit = digits := by
  rw [List.takeWhile_append_of_pos hdigits]
  cases rest with
  | nil => simp
  | cons c rest => simp [hrest c rfl]

theorem dropWhile_isDigit_append {digits rest : List Char}
    (hdigits : ∀ c ∈ digits, c.isDigit = true) (hrest : EndsNumber rest) :
    (digits ++ rest).dropWhile Char.isDigit = rest := by
  rw [List.dropWhile_append_of_pos hdigits]
  cases rest with
  | nil => simp
  | cons c rest => simp [hrest c rfl]

theorem readNumber_toDigits (n : Nat) {rest : List Char} (hrest : EndsNumber rest) :
    readNumber (Nat.toDigits 10 n ++ rest) = some (n, rest) := by
  have hdigits : ∀ c ∈ Nat.toDigits 10 n, c.isDigit = true := Decimal.isDigit_of_mem_whole
  have hzeros : ¬((Nat.toDigits 10 n).head? = some '0' ∧ Nat.toDigits 10 n ≠ ['0']) :=
    fun ⟨hhead, hne⟩ => hne ((Decimal.isWhole_toDigits n).eq_zero hhead)
  simp only [readNumber, takeWhile_isDigit_append hdigits hrest,
    dropWhile_isDigit_append hdigits hrest, Nat.toDigits_ne_nil, hzeros, or_self, if_false,
    Nat.ofDigitChars_ten_toDigits]

/-! ## Values -/

theorem skipBlanks_cons {c : Char} {text : List Char} (h : isBlank c = false) :
    skipBlanks (c :: text) = c :: text :=
  List.dropWhile_cons_of_neg (by simp [h])

theorem endsNumber_renderLater (members : List (List Char × Json)) (rest : List Char) :
    EndsNumber (renderLater members ++ '\x7d' :: rest) := by
  intro c hc
  cases members with
  | nil => cases hc; decide
  | cons member later => cases hc; decide

theorem readValue_string (fuel : Nat) (text rest : List Char) :
    readValue (fuel + 1) (quote text ++ rest) = some (string text, rest) := by
  rw [quote_append, readValue, skipBlanks_cons (by decide)]
  simp only [readString_quoted]
  rfl

theorem readValue_number (fuel n : Nat) {rest : List Char} (hrest : EndsNumber rest) :
    readValue (fuel + 1) (Nat.toDigits 10 n ++ rest) = some (number n, rest) := by
  have hread := readNumber_toDigits n hrest
  obtain ⟨c, digits, hdigits⟩ : ∃ c digits, Nat.toDigits 10 n = c :: digits :=
    List.exists_cons_of_ne_nil Nat.toDigits_ne_nil
  have hdigit : c.isDigit = true := Decimal.isDigit_of_mem_whole c (hdigits ▸ List.mem_cons_self)
  have hother : ∀ {d : Char}, d.isDigit = false → c ≠ d := by
    rintro d hd rfl
    exact absurd hdigit (by simp [hd])
  have hblank : isBlank c = false := by
    simp [isBlank, hother]
  rw [hdigits, List.cons_append] at hread ⊢
  rw [readValue, skipBlanks_cons hblank]
  split
  · next heq => exact absurd (List.cons.inj heq).1 (hother (by decide))
  · next heq => exact absurd (List.cons.inj heq).1 (hother (by decide))
  · rw [hread]
    rfl

theorem renderLater_cons (name : List Char) (value : Json) (later : List (List Char × Json)) :
    renderLater ((name, value) :: later) =
      ',' :: '"' :: (name.flatMap escape ++ '"' :: ':' :: (render value ++ renderLater later)) := by
  simp [renderLater, quote]

theorem exists_renderLater (member : List Char × Json) (later : List (List Char × Json)) :
    ∃ text, renderLater (member :: later) = ',' :: text :=
  ⟨_, renderLater_cons member.1 member.2 later⟩

/-- An object is written as its members, the first one without the comma of a later one. -/
theorem render_object {members : List (List Char × Json)} {text : List Char}
    (htext : renderLater members = ',' :: text) :
    render (object members) = '\x7b' :: text ++ ['\x7d'] := by
  obtain _ | ⟨⟨name, value⟩, later⟩ := members
  · cases htext
  · rw [renderLater_cons, List.cons.injEq] at htext
    simp [render, quote, ← htext.2]

theorem readValue_object {fuel : Nat} {text rest : List Char} {members : List (List Char × Json)}
    (htext : renderLater members = ',' :: text)
    (hread : readMembers fuel (text ++ '\x7d' :: rest) = some (members, rest)) :
    readValue (fuel + 1) ('\x7b' :: text ++ '\x7d' :: rest) = some (object members, rest) := by
  obtain _ | ⟨⟨name, value⟩, later⟩ := members
  · cases htext
  · rw [renderLater_cons, List.cons.injEq] at htext
    rw [← htext.2, List.cons_append] at hread
    rw [← htext.2, List.cons_append, List.cons_append, readValue, skipBlanks_cons (by decide)]
    simp only [skipBlanks_cons (c := '"') (by decide)]
    change Reading.map object (readMembers fuel _) = _
    rw [hread]
    rfl

mutual

-- Each recursive call is on a text that is shorter by at least one character, so the fuel lasts.
/-- A value is read back, whatever follows it. -/
theorem readValue_render : ∀ (value : Json) (fuel : Nat) {rest : List Char},
    (render value).length < fuel → EndsNumber rest →
      readValue fuel (render value ++ rest) = some (value, rest)
  | _, 0, _, hfuel, _ => absurd hfuel (Nat.not_lt_zero _)
  | .string text, fuel + 1, rest, _, _ => readValue_string fuel text rest
  | .number n, fuel + 1, _, _, hrest => readValue_number fuel n hrest
  | .object [], fuel + 1, rest, _, _ => by
    rw [render, List.cons_append, readValue, skipBlanks_cons (by decide)]
    rfl
  | .object (member :: later), fuel + 1, rest, hfuel, _ => by
    obtain ⟨text, htext⟩ := exists_renderLater member later
    rw [render_object htext, List.length_append, List.length_cons] at hfuel
    rw [render_object htext, List.append_assoc]
    exact readValue_object htext
      (readMembers_render (member :: later) fuel htext (by omega))

/-- The members of an object are read back: those that are written later, without the comma. -/
theorem readMembers_render : ∀ (members : List (List Char × Json)) (fuel : Nat)
    {text rest : List Char}, renderLater members = ',' :: text → text.length < fuel →
      readMembers fuel (text ++ '\x7d' :: rest) = some (members, rest)
  | _, 0, _, _, _, hfuel => absurd hfuel (Nat.not_lt_zero _)
  | [], _, _, _, htext, _ => by
    cases htext
  | (name, value) :: later, fuel + 1, text, rest, htext, hfuel => by
    rw [renderLater_cons, List.cons.injEq] at htext
    rw [← htext.2] at hfuel ⊢
    simp only [List.length_cons, List.length_append] at hfuel
    have hvalue := readValue_render value fuel (by omega) (endsNumber_renderLater later rest)
    simp only [List.cons_append, List.append_assoc]
    rw [readMembers, skipBlanks_cons (by decide)]
    simp only [readString_quoted, Reading.andThen, skipBlanks_cons (c := ':') (by decide), hvalue]
    cases later with
    | nil => rfl
    | cons member later =>
      obtain ⟨text, htext⟩ := exists_renderLater member later
      rw [htext, List.length_cons] at hfuel
      have hlater : readMembers fuel (text ++ '\x7d' :: rest) = some (member :: later, rest) :=
        readMembers_render (member :: later) fuel htext (by omega)
      simp only [htext, List.cons_append, skipBlanks_cons (c := ',') (by decide), hlater]
      rfl

end

theorem decode_render (value : Json) : decode (render value) = some value := by
  have hread : readValue ((render value).length + 1) (render value ++ []) = some (value, []) :=
    readValue_render value _ (Nat.lt_succ_self _) (fun _ h => nomatch h)
  rw [List.append_nil] at hread
  simp [decode, hread, skipBlanks]

/-- A text need not be as compact as those that are written, nor have their escapes. -/
example : decode "\x7b \"a\\/\\u00E9\" : \x7b\"\":10 \x7d ,\"b\":\"\\\"\"\x7d\n".toList =
    some (.object [("a/é".toList, .object [([], .number 10)]), ("b".toList, .string ['"'])]) := by
  cbv

/-! ## Lines -/

/-- Neither a control character nor the end of a line. -/
def IsPrintable (text : List Char) : Prop := ∀ c ∈ text, 0x20 ≤ c.toNat

@[simp] theorem isPrintable_nil : IsPrintable [] := List.forall_mem_nil _

@[simp] theorem isPrintable_cons {c : Char} {text : List Char} :
    IsPrintable (c :: text) ↔ 0x20 ≤ c.toNat ∧ IsPrintable text :=
  List.forall_mem_cons

@[simp] theorem isPrintable_append {a b : List Char} :
    IsPrintable (a ++ b) ↔ IsPrintable a ∧ IsPrintable b :=
  List.forall_mem_append

theorem le_toNat_digitChar {digit : Nat} (h : digit < 16) : 0x20 ≤ (Nat.digitChar digit).toNat := by
  revert digit
  decide

theorem isPrintable_hexEscape {code : Nat} (h : code < 0x20) : IsPrintable (hexEscape code) := by
  have hhigh := le_toNat_digitChar (show code / 16 < 16 by omega)
  have hlow := le_toNat_digitChar (show code % 16 < 16 by omega)
  simp [hexEscape, hhigh, hlow]

theorem isPrintable_escape (c : Char) : IsPrintable (escape c) := by
  rcases escape_cases c with ⟨e, he, -, hle⟩ | ⟨hcode, hcontrol⟩ | ⟨hplain, -, -, hle⟩
  · simp [he, hle]
  · rw [hcode]
    exact isPrintable_hexEscape hcontrol
  · simp [hplain, hle]

theorem isPrintable_quote (text : List Char) : IsPrintable (quote text) := by
  have hescaped : IsPrintable (text.flatMap escape) := by
    intro c hc
    obtain ⟨c', -, hc⟩ := List.mem_flatMap.mp hc
    exact isPrintable_escape c' c hc
  simp [quote, hescaped]

theorem isPrintable_toDigits (n : Nat) : IsPrintable (Nat.toDigits 10 n) := by
  intro c hc
  have hdigit : 48 ≤ c.toNat := by
    have h := Decimal.isDigit_of_mem_whole c hc
    rw [Char.isDigit, Bool.and_eq_true, decide_eq_true_eq] at h
    exact h.1
  omega

mutual

/-- Whatever is written is one line. -/
theorem isPrintable_render : ∀ value : Json, IsPrintable (render value)
  | .string text => isPrintable_quote text
  | .number n => isPrintable_toDigits n
  | .object [] => by simp [render]
  | .object ((name, value) :: later) => by
    simp [render, isPrintable_quote name, isPrintable_render value, isPrintable_renderLater later]

theorem isPrintable_renderLater :
    ∀ members : List (List Char × Json), IsPrintable (renderLater members)
  | [] => by simp [renderLater]
  | (name, value) :: later => by
    simp [renderLater, isPrintable_quote name, isPrintable_render value,
      isPrintable_renderLater later]

end

end PocketCalculator.Json
