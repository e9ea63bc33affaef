/-!
# Compact JSON

The part of JSON that reports are written in, without spaces, the members of an object in the
order given. In strings only the quotation mark, the backslash and the control characters
below U+0020 are escaped, the latter by their short form where there is one.
-/
namespace PocketCalculator

inductive Json where
  | string (text : List Char)
  | number (value : Nat)
  | object (members : List (List Char × Json))

namespace Json

/-- The four hexadecimal digits of an escaped control character. -/
def hexEscape (code : Nat) : List Char :=
  ['\\', 'u', '0', '0', Nat.digitChar (code / 16), Nat.digitChar (code % 16)]

def escape (c : Char) : List Char :=
  if c = '"' then ['\\', '"']
  else if c = '\\' then ['\\', '\\']
  else if c = '\x08' then ['\\', 'b']
  else if c = '\t' then ['\\', 't']
  else if c = '\n' then ['\\', 'n']
  else if c = '\x0c' then ['\\', 'f']
  else if c = '\r' then ['\\', 'r']
  else if c.toNat < 0x20 then hexEscape c.toNat
  else [c]

def quote (text : List Char) : List Char :=
  '"' :: text.flatMap escape ++ ['"']

mutual

def render : Json → List Char
  | string text => quote text
  | number value => Nat.toDigits 10 value
  | object [] => ['\x7b', '\x7d']
  | object ((name, value) :: later) =>
    '\x7b' :: quote name ++ ':' :: render value ++ renderLater later ++ ['\x7d']

/-- The members after the first one. -/
def renderLater : List (List Char × Json) → List Char
  | [] => []
  | (name, value) :: later => ',' :: quote name ++ ':' :: render value ++ renderLater later

end

end Json

end PocketCalculator
