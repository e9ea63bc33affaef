import PocketCalculator.Text.WhiteSpace

/-!
# Lines of input

A line is taken off the input as bytes, up to its line feed, and only then decoded. So a line
that is not valid UTF-8 leaves the lines before it readable. The end of a line does not belong
to its text; after the last line feed there is a line only if there are bytes.
-/
namespace PocketCalculator.Text

def lineFeed : UInt8 := 0x0A

def decodeUtf8 (bytes : List UInt8) : Option (List Char) :=
  (String.fromUTF8? ⟨bytes.toArray⟩).map String.toList

/-- The bytes up to the first line feed, with it if there is one, and those after it. -/
def takeLine (input : List UInt8) : List UInt8 × List UInt8 :=
  match input.dropWhile (· != lineFeed) with
  | [] => (input, [])
  | feed :: later => (input.takeWhile (· != lineFeed) ++ [feed], later)

theorem takeLine_append (input : List UInt8) :
    (takeLine input).1 ++ (takeLine input).2 = input := by
  unfold takeLine
  split
  · exact List.append_nil input
  · rename_i feed later hdrop
    rw [List.append_assoc, List.singleton_append, ← hdrop, List.takeWhile_append_dropWhile]

theorem length_lt_of_takeLine {input line later : List UInt8} {byte : UInt8}
    (h : takeLine input = (byte :: line, later)) : later.length < input.length := by
  have happend := takeLine_append input
  rw [h] at happend
  simp only [← happend, List.length_append, List.length_cons]
  omega

/-- A text without the line feed that ends it, and without the carriage return before that. -/
def dropLineEnd (text : List Char) : List Char :=
  if text.getLast? = some '\n' then
    let line := text.dropLast
    if line.getLast? = some '\r' then line.dropLast else line
  else text

/-- The texts of the lines of an input, one after the other. A line that is not valid UTF-8
has none. -/
def lines (input : List UInt8) : List (Option (List Char)) :=
  match h : takeLine input with
  | ([], _) => []
  | (byte :: line, later) =>
    have := length_lt_of_takeLine h
    (decodeUtf8 (byte :: line)).map dropLineEnd :: lines later
termination_by input.length

end PocketCalculator.Text
