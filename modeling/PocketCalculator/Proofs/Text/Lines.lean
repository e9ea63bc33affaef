import Mathlib.Data.List.DropRight
import Mathlib.Data.List.TakeWhile
import PocketCalculator.Text.Lines

/-!
# Lines of encoded text

No character but the line feed has the byte of the line feed in its encoding. So the parts of
an encoded text between line feeds are the encoded parts of the text between its line feeds, and
reading the lines of an input one after the other gives the texts of its parts, up to white space
at their ends.
-/
namespace PocketCalculator.Text

theorem splitOn_append_of_not_mem {α : Type} [BEq α] [LawfulBEq α] {separator : α}
    {before : List α} (hbefore : separator ∉ before) (items : List α) :
    (before ++ items).splitOn separator =
      (items.splitOn separator).modifyHead (before ++ ·) := by
  induction before with
  | nil => exact (congrFun List.modifyHead_id _).symm
  | cons item before ih =>
    obtain ⟨hitem, hbefore⟩ : separator ≠ item ∧ separator ∉ before := by simpa using hbefore
    rw [List.cons_append, List.splitOn_cons_eq_if_modifyHead, if_neg (by simpa using hitem.symm),
      ih hbefore, List.modifyHead_modifyHead]
    rfl

/-! ## Bytes -/

def encodeUtf8 (text : List Char) : List UInt8 := (String.ofList text).toUTF8.data.toList

theorem encodeUtf8_eq_flatMap (text : List Char) :
    encodeUtf8 text = text.flatMap String.utf8EncodeChar := by
  rw [encodeUtf8, String.toUTF8_eq_toByteArray, String.toByteArray_ofList, List.utf8Encode,
    List.toList_data_toByteArray]

theorem decodeUtf8_encodeUtf8 (text : List Char) : decodeUtf8 (encodeUtf8 text) = some text := by
  have hvalid : (String.ofList text).toUTF8.IsValidUTF8 := (String.ofList text).isValidUTF8
  rw [decodeUtf8, encodeUtf8, Array.toArray_toList, String.fromUTF8?, dif_pos hvalid]
  exact congrArg some String.toList_ofList

/-- A character encoded in several bytes has the highest bit set in all of them. -/
theorem lineFeed_ne_or (x : UInt8) {y : UInt8} (h : y.toNat.testBit 7 = true) :
    lineFeed ≠ x ||| y := by
  intro heq
  have hbit : lineFeed.toNat.testBit 7 = true := by
    rw [heq, UInt8.toNat_or, Nat.testBit_or, h, Bool.or_true]
  exact absurd hbit (by decide)

theorem lineFeed_ne_toUInt8 {c : Char} (hsize : c.utf8Size = 1) (h : c ≠ '\n') :
    lineFeed ≠ c.val.toUInt8 := by
  intro heq
  have hle : c.toNat ≤ 127 := Char.utf8Size_eq_one_iff.mp hsize
  have hmod : c.toNat % 256 = 10 := (congrArg UInt8.toNat heq).symm
  exact h (Char.toNat_inj.mp (by omega : c.toNat = 10))

theorem lineFeed_not_mem_utf8EncodeChar {c : Char} (h : c ≠ '\n') :
    lineFeed ∉ String.utf8EncodeChar c := by
  obtain hone | htwo | hthree | hfour := c.utf8Size_eq
  · rw [String.utf8EncodeChar_eq_singleton hone, List.mem_singleton]
    exact lineFeed_ne_toUInt8 hone h
  · rw [String.utf8EncodeChar_eq_cons_cons htwo]
    simp [lineFeed_ne_or _ (y := 0xc0) (by decide), lineFeed_ne_or _ (y := 0x80) (by decide)]
  · rw [String.utf8EncodeChar_eq_cons_cons_cons hthree]
    simp [lineFeed_ne_or _ (y := 0xe0) (by decide), lineFeed_ne_or _ (y := 0x80) (by decide)]
  · rw [String.utf8EncodeChar_eq_cons_cons_cons_cons hfour]
    simp [lineFeed_ne_or _ (y := 0xf0) (by decide), lineFeed_ne_or _ (y := 0x80) (by decide)]

theorem encodeUtf8_cons (c : Char) (text : List Char) :
    encodeUtf8 (c :: text) = String.utf8EncodeChar c ++ encodeUtf8 text := by
  rw [encodeUtf8_eq_flatMap, encodeUtf8_eq_flatMap, List.flatMap_cons]

theorem splitOn_encodeUtf8 (text : List Char) :
    (encodeUtf8 text).splitOn lineFeed = (text.splitOn '\n').map encodeUtf8 := by
  induction text with
  | nil => simp [encodeUtf8_eq_flatMap]
  | cons c text ih =>
    rw [encodeUtf8_cons, List.splitOn_cons_eq_if_modifyHead]
    by_cases hfeed : c = '\n'
    · have hbytes : String.utf8EncodeChar c = [lineFeed] := by rw [hfeed]; rfl
      rw [hbytes, List.singleton_append, List.splitOn_cons_eq_if_modifyHead, ih]
      simp [hfeed, encodeUtf8_eq_flatMap]
    · -- The bytes of the character go to the front of the first part, as the character does.
      obtain ⟨part, later, hparts⟩ := List.exists_cons_of_ne_nil (List.splitOn_ne_nil '\n' text)
      rw [splitOn_append_of_not_mem (lineFeed_not_mem_utf8EncodeChar hfeed), ih,
        if_neg (by simpa using hfeed), hparts]
      exact congrArg (· :: _) (encodeUtf8_cons c part).symm

theorem encodeUtf8_append (text later : List Char) :
    encodeUtf8 (text ++ later) = encodeUtf8 text ++ encodeUtf8 later := by
  simp only [encodeUtf8_eq_flatMap, List.flatMap_append]

theorem encodeUtf8_feed : encodeUtf8 ['\n'] = [lineFeed] := by
  rw [encodeUtf8_eq_flatMap]
  rfl

theorem decodeUtf8_eq_some_iff {bytes : List UInt8} {text : List Char} :
    decodeUtf8 bytes = some text ↔ encodeUtf8 text = bytes := by
  constructor
  · intro h
    rw [decodeUtf8, String.fromUTF8?] at h
    split at h
    · rename_i hvalid
      cases h
      rw [encodeUtf8, String.ofList_toList]
      rfl
    · cases h
  · rintro rfl
    exact decodeUtf8_encodeUtf8 text

/-- Bytes can be decoded with a line feed after them only if they can be without it. -/
theorem decodeUtf8_feed {line : List UInt8} (hfeed : lineFeed ∉ line) :
    decodeUtf8 (line ++ [lineFeed]) = (decodeUtf8 line).map (· ++ ['\n']) := by
  cases hline : decodeUtf8 line with
  | some text =>
    rw [Option.map_some, decodeUtf8_eq_some_iff, encodeUtf8_append, encodeUtf8_feed,
      decodeUtf8_eq_some_iff.mp hline]
  | none =>
    rw [Option.map_none, Option.eq_none_iff_forall_ne_some]
    intro text htext
    -- The first part of such a text would be encoded in the bytes before the line feed.
    have hparts : (text.splitOn '\n').map encodeUtf8 = line :: [[]] := by
      rw [← splitOn_encodeUtf8, decodeUtf8_eq_some_iff.mp htext,
        List.splitOn_append_cons_self_of_not_mem hfeed, List.splitOn_nil]
    obtain ⟨part, later, -, hpart, -⟩ := List.map_eq_cons_iff.mp hparts
    rw [decodeUtf8_eq_some_iff.mpr hpart] at hline
    cases hline

/-! ## White space at the end of a line -/

theorem trim_append_of_isWhiteSpace {c : Char} (h : isWhiteSpace c = true) (text : List Char) :
    trim (text ++ [c]) = trim text := by
  have hdrop : (text ++ [c]).dropWhile isWhiteSpace = text.dropWhile isWhiteSpace ++ [c] ∨
      (text ++ [c]).dropWhile isWhiteSpace = text.dropWhile isWhiteSpace := by
    rw [List.dropWhile_append]
    split
    · rename_i hempty
      refine Or.inr ?_
      rw [List.dropWhile_cons_of_pos h, List.isEmpty_iff.mp hempty, List.dropWhile_nil]
    · exact Or.inl rfl
  rcases hdrop with hdrop | hdrop
  · rw [trim, hdrop, List.reverse_append, List.reverse_singleton, List.singleton_append,
      List.dropWhile_cons_of_pos h, ← trim]
  · rw [trim, hdrop, ← trim]

theorem trim_dropLast {c : Char} {text : List Char} (hlast : text.getLast? = some c)
    (h : isWhiteSpace c = true) : trim text.dropLast = trim text := by
  obtain ⟨before, rfl⟩ := List.getLast?_eq_some_iff.mp hlast
  rw [List.dropLast_concat, trim_append_of_isWhiteSpace h]

theorem trim_dropLineEnd (text : List Char) : trim (dropLineEnd text) = trim text := by
  unfold dropLineEnd
  split
  · rename_i hfeed
    dsimp only
    split
    · rename_i hreturn
      rw [trim_dropLast hreturn (by decide), trim_dropLast hfeed (by decide)]
    · exact trim_dropLast hfeed (by decide)
  · rfl

/-! ## Reading lines -/

theorem bne_lineFeed {line : List UInt8} (hfeed : lineFeed ∉ line) :
    ∀ byte ∈ line, (byte != lineFeed) = true :=
  fun _ hbyte => bne_iff_ne.mpr fun heq => hfeed (heq ▸ hbyte)

theorem takeLine_of_feed {line : List UInt8} (hfeed : lineFeed ∉ line) (later : List UInt8) :
    takeLine (line ++ lineFeed :: later) = (line ++ [lineFeed], later) := by
  have hall := bne_lineFeed hfeed
  rw [takeLine, List.dropWhile_append_of_pos hall, List.dropWhile_cons_of_neg (by simp),
    List.takeWhile_append_of_pos hall, List.takeWhile_cons_of_neg (by simp), List.append_nil]

theorem takeLine_of_no_feed {line : List UInt8} (hfeed : lineFeed ∉ line) :
    takeLine line = (line, []) := by
  have hall := bne_lineFeed hfeed
  have hdrop : line.dropWhile (· != lineFeed) = [] := List.dropWhile_eq_nil_iff.mpr hall
  rw [takeLine, hdrop]

theorem lines_nil : lines [] = [] := by
  rw [lines]
  rfl

theorem lines_of_takeLine {input line later : List UInt8} (h : takeLine input = (line, later))
    (hne : line ≠ []) : lines input = (decodeUtf8 line).map dropLineEnd :: lines later := by
  obtain ⟨byte, bytes, rfl⟩ := List.exists_cons_of_ne_nil hne
  rw [lines]
  split
  · rename_i heq
    rw [h] at heq
    cases heq
  · rename_i heq
    rw [h] at heq
    cases heq
    rfl

/-- An input is a part without a line feed, or it is such a part, a line feed, and an input. -/
theorem input_induction {motive : List UInt8 → Prop}
    (last : ∀ line, lineFeed ∉ line → motive line)
    (next : ∀ line later, lineFeed ∉ line → motive later → motive (line ++ lineFeed :: later))
    (input : List UInt8) : motive input := by
  by_cases hmem : lineFeed ∈ input
  · obtain ⟨line, later, rfl, hline⟩ := List.eq_append_cons_of_mem hmem
    exact next line later hline (input_induction last next later)
  · exact last input hmem
termination_by input.length

/-- The parts of an input between line feeds, each decoded on its own. -/
def parts (input : List UInt8) : List (Option (List Char)) :=
  (input.splitOn lineFeed).map decodeUtf8

theorem parts_of_no_feed {line : List UInt8} (hfeed : lineFeed ∉ line) :
    parts line = [decodeUtf8 line] := by
  rw [parts, List.splitOn_eq_singleton hfeed, List.map_singleton]

theorem parts_of_feed {line : List UInt8} (hfeed : lineFeed ∉ line) (later : List UInt8) :
    parts (line ++ lineFeed :: later) = decodeUtf8 line :: parts later := by
  rw [parts, List.splitOn_append_cons_self_of_not_mem hfeed, List.map_cons, ← parts]

/-- The texts before the first line that has none, without the white space at both of their ends
and without those that are nothing else. -/
def readable (lines : List (Option (List Char))) : List (List Char) :=
  ((lines.takeWhile Option.isSome).filterMap (·.map trim)).filter (· ≠ [])

theorem readable_some (text : List Char) (later : List (Option (List Char))) :
    readable (some text :: later) =
      if trim text = [] then readable later else trim text :: readable later := by
  by_cases hblank : trim text = []
  · simp [readable, hblank]
  · simp [readable, hblank]

theorem readable_map_some (texts : List (List Char)) (later : List (Option (List Char))) :
    readable (texts.map some ++ later) = (texts.map trim).filter (· ≠ []) ++ readable later := by
  induction texts with
  | nil => rfl
  | cons text texts ih =>
    rw [List.map_cons, List.cons_append, readable_some, ih, List.map_cons, List.filter_cons]
    by_cases hblank : trim text = []
    · simp [hblank]
    · simp [hblank]

/-- The lines that are read have the texts of the parts between line feeds, but for their ends.
There is no line after a last line feed, where there is an empty part. -/
theorem lines_eq_parts (input : List UInt8) :
    readable (lines input) = readable (parts input) ∧
      (lines input).all Option.isSome = (parts input).all Option.isSome := by
  induction input using input_induction with
  | last line hfeed =>
    rw [parts_of_no_feed hfeed]
    by_cases hne : line = []
    · subst hne
      rw [lines_nil]
      decide
    · rw [lines_of_takeLine (takeLine_of_no_feed hfeed) hne, lines_nil]
      cases decodeUtf8 line with
      | none => exact ⟨rfl, rfl⟩
      | some text => simp only [Option.map_some, readable_some, trim_dropLineEnd, List.all_cons,
          Option.isSome_some, and_self]
  | next line later hfeed ih =>
    rw [parts_of_feed hfeed, lines_of_takeLine (takeLine_of_feed hfeed later) (by simp),
      decodeUtf8_feed hfeed]
    cases decodeUtf8 line with
    | none => exact ⟨rfl, rfl⟩
    | some text =>
      have hline : trim (text ++ ['\n']) = trim text :=
        trim_append_of_isWhiteSpace (by decide) text
      simp only [Option.map_some, readable_some, trim_dropLineEnd, hline, ih.1, ih.2,
        List.all_cons, Option.isSome_some, and_self]

/-- A carriage return ends a line only together with a line feed. -/
example : lines (encodeUtf8 "1\r\n\n\r2\r".toList) =
    [some "1".toList, some [], some "\r2\r".toList] := by decide +kernel

/-! ## Lines of a text -/

/-- The parts of a text between line feeds, without the white space at both of their ends and
without those that are nothing else. -/
def expressions (text : List Char) : List (List Char) :=
  ((text.splitOn '\n').map fun line =>
    (line.dropWhile isWhiteSpace).rdropWhile isWhiteSpace).filter (· ≠ [])

theorem parts_encodeUtf8 (text : List Char) :
    parts (encodeUtf8 text) = (text.splitOn '\n').map some := by
  rw [parts, splitOn_encodeUtf8, List.map_map]
  exact List.map_congr_left fun part _ => decodeUtf8_encodeUtf8 part

/-- All lines of an encoded text are read, and there is nothing else to evaluate in it. -/
theorem lines_encodeUtf8 (text : List Char) :
    readable (lines (encodeUtf8 text)) = expressions text ∧
      (lines (encodeUtf8 text)).all Option.isSome = true := by
  obtain ⟨htexts, hall⟩ := lines_eq_parts (encodeUtf8 text)
  rw [htexts, hall, parts_encodeUtf8]
  refine ⟨?_, by simp⟩
  have hreadable := readable_map_some (text.splitOn '\n') []
  rw [List.append_nil] at hreadable
  exact hreadable.trans (List.append_nil _)

theorem expressions_append (text later : List Char) :
    expressions (text ++ '\n' :: later) = expressions text ++ expressions later := by
  rw [expressions, List.splitOn_append_cons_self, List.map_append, List.filter_append]
  rfl

theorem expressions_nil : expressions [] = [] := by
  simp [expressions]

/-- Carriage returns and other white space around an expression do not belong to it. -/
example : expressions " 1+1\r\n\r\n\u00a02 X 3\u2029".toList = ["1+1".toList, "2 X 3".toList] := by
  decide

end PocketCalculator.Text
