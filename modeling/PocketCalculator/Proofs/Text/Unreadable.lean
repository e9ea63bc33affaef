import PocketCalculator.Proofs.Text.Lines

/-!
# Lines that are no text

A line is readable if its bytes encode a text. The lines before the first one that is not are read
as if the input ended with them.
-/
namespace PocketCalculator.Text

/-- The bytes encode some text. -/
def IsUtf8 (bytes : List UInt8) : Prop := ∃ text, encodeUtf8 text = bytes

theorem isSome_decodeUtf8 {bytes : List UInt8} :
    (decodeUtf8 bytes).isSome = true ↔ IsUtf8 bytes := by
  simp only [Option.isSome_iff_exists, decodeUtf8_eq_some_iff, IsUtf8]

theorem decodeUtf8_eq_none {bytes : List UInt8} (h : ¬IsUtf8 bytes) : decodeUtf8 bytes = none := by
  rw [← Option.not_isSome_iff_eq_none, isSome_decodeUtf8]
  exact h

theorem exists_map_decodeUtf8 {lines : List (List UInt8)} (h : ∀ line ∈ lines, IsUtf8 line) :
    ∃ texts : List (List Char), lines.map decodeUtf8 = texts.map some := by
  induction lines with
  | nil => exact ⟨[], rfl⟩
  | cons line lines ih =>
    obtain ⟨text, rfl⟩ := h line (by simp)
    obtain ⟨texts, htexts⟩ := ih fun other hother => h other (by simp [hother])
    exact ⟨text :: texts, by rw [List.map_cons, htexts, decodeUtf8_encodeUtf8, List.map_cons]⟩

theorem not_mem_of_mem_splitOn {α : Type} [BEq α] [LawfulBEq α] {separator : α}
    {items part : List α} (h : part ∈ items.splitOn separator) : separator ∉ part := by
  induction items generalizing part with
  | nil => simp_all
  | cons item items ih =>
    rw [List.splitOn_cons_eq_if_modifyHead] at h
    split at h
    · rcases List.mem_cons.mp h with rfl | h
      · simp
      · exact ih h
    · rename_i hitem
      obtain ⟨first, later, hparts⟩ :=
        List.exists_cons_of_ne_nil (List.splitOn_ne_nil separator items)
      rw [hparts] at h ih
      rcases List.mem_cons.mp h with rfl | h
      · have hfirst := ih (List.mem_cons_self (a := first))
        simpa using ⟨fun heq => hitem (by simp [heq]), hfirst⟩
      · exact ih (List.mem_cons_of_mem _ h)

/-- Lines, each with a line feed after it. -/
def joinLines (lines : List (List UInt8)) : List UInt8 := lines.flatMap (· ++ [lineFeed])

/-- Lines of an input are its lines again when nothing follows them. -/
theorem splitOn_joinLines {input : List UInt8} {lines later : List (List UInt8)}
    (h : input.splitOn lineFeed = lines ++ later) :
    (joinLines lines).splitOn lineFeed = lines ++ [[]] := by
  have hfeed : ∀ line ∈ lines, lineFeed ∉ line := fun line hline =>
    not_mem_of_mem_splitOn (h ▸ List.mem_append_left _ hline)
  clear h
  induction lines with
  | nil => simp [joinLines]
  | cons line lines ih =>
    have hjoined : joinLines (line :: lines) = line ++ lineFeed :: joinLines lines := by
      simp [joinLines]
    rw [hjoined, List.splitOn_append_cons_self_of_not_mem (hfeed line (by simp)),
      ih fun later hlater => hfeed later (by simp [hlater]), List.cons_append]

theorem isUtf8_of_mem_splitOn_joinLines {input : List UInt8} {lines later : List (List UInt8)}
    (h : input.splitOn lineFeed = lines ++ later) (hlines : ∀ line ∈ lines, IsUtf8 line) :
    ∀ line ∈ (joinLines lines).splitOn lineFeed, IsUtf8 line := by
  rw [splitOn_joinLines h]
  intro line hline
  rcases List.mem_append.mp hline with hline | hline
  · exact hlines line hline
  · exact ⟨[], (List.mem_singleton.mp hline).symm⟩

/-! ## Lines that can and cannot be read -/

theorem all_isSome_lines {input : List UInt8} (h : ∀ line ∈ input.splitOn lineFeed, IsUtf8 line) :
    (lines input).all Option.isSome = true := by
  obtain ⟨texts, htexts⟩ := exists_map_decodeUtf8 h
  rw [(lines_eq_parts input).2, parts, htexts]
  simp

/-- The lines before the first one that cannot be read are read as if nothing followed them. -/
theorem lines_of_unreadable {input bad : List UInt8} {before after : List (List UInt8)}
    (hlines : input.splitOn lineFeed = before ++ bad :: after)
    (hbefore : ∀ line ∈ before, IsUtf8 line) (hbad : ¬IsUtf8 bad) :
    readable (lines input) = readable (lines (joinLines before)) ∧
      (lines input).all Option.isSome = false := by
  obtain ⟨texts, htexts⟩ := exists_map_decodeUtf8 hbefore
  have hinput : parts input = texts.map some ++ none :: after.map decodeUtf8 := by
    rw [parts, hlines, List.map_append, htexts, List.map_cons, decodeUtf8_eq_none hbad]
  have hjoined : parts (joinLines before) = texts.map some ++ [some []] := by
    rw [parts, splitOn_joinLines hlines, List.map_append, htexts]
    rfl
  rw [(lines_eq_parts input).1, (lines_eq_parts input).2, (lines_eq_parts (joinLines before)).1,
    hinput, hjoined, readable_map_some, readable_map_some]
  exact ⟨rfl, by simp⟩

end PocketCalculator.Text
