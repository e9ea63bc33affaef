/-!
# White space

The characters with the Unicode property White_Space. Zero-width space and the byte order
mark do not have it, nor do the information separators U+001C to U+001F.
-/
namespace PocketCalculator.Text

/-- First and last code point of each run of white space. -/
def whiteSpaceRanges : List (Nat × Nat) :=
  [(0x09, 0x0D), (0x20, 0x20), (0x85, 0x85), (0xA0, 0xA0), (0x1680, 0x1680),
    (0x2000, 0x200A), (0x2028, 0x2029), (0x202F, 0x202F), (0x205F, 0x205F), (0x3000, 0x3000)]

def isWhiteSpace (c : Char) : Bool :=
  whiteSpaceRanges.any fun range => range.1 ≤ c.toNat && c.toNat ≤ range.2

/-- A text without the white space at both of its ends. -/
def trim (text : List Char) : List Char :=
  ((text.dropWhile isWhiteSpace).reverse.dropWhile isWhiteSpace).reverse

example : (whiteSpaceRanges.map fun range => range.2 + 1 - range.1).sum = 25 := by decide

end PocketCalculator.Text
