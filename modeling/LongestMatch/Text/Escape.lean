import LongestMatch.Text.Unprintable

/-!
# Escaped text

How characters appear in messages and pictures. `Escape.shown` is for readers: what has a glyph
stands for itself, what has none is written as an escape. `Escape.ascii` leaves only printable
ASCII. A character without a short escape is written as `\u{…}` with its code point in lower-case
hexadecimal digits.
-/

namespace LongestMatch

namespace Escape

/-- A code point in lower-case hexadecimal digits, without leading zeros. -/
def hexDigits (code : Nat) : String :=
  String.ofList (Nat.toDigits 16 code)

/-- The escape by code point. -/
def byCode (c : Char) : String :=
  "\\u\x7b" ++ hexDigits c.toNat ++ "\x7d"

/-- Which of the two quotation marks gets a backslash. -/
structure Quotes where
  single : Bool
  double : Bool

/-- A character for readers: a backslash before what has a short escape and before the quotation
marks chosen, the code point where there is no glyph, and the character itself otherwise. -/
def shown (quotes : Quotes) (c : Char) : String :=
  if c = '\x00' then "\\0"
  else if c = '\t' then "\\t"
  else if c = '\n' then "\\n"
  else if c = '\r' then "\\r"
  else if c = '\\' then "\\\\"
  else if c = '\'' ∧ quotes.single then "\\'"
  else if c = '"' ∧ quotes.double then "\\\""
  else if isUnprintable c then byCode c
  else c.toString

/-- A single character for readers, with a backslash before either quotation mark. -/
def char (c : Char) : String :=
  shown ⟨true, true⟩ c

/-- A text in double quotes for readers; only those quotes need a backslash within it. -/
def quoted (s : String) : String :=
  "\"" ++ String.join (s.toList.map (shown ⟨false, true⟩)) ++ "\""

/-- A character in printable ASCII. -/
def asciiChar (c : Char) : String :=
  if c = '\t' then "\\t"
  else if c = '\n' then "\\n"
  else if c = '\r' then "\\r"
  else if c = '\\' ∨ c = '\'' ∨ c = '"' then "\\" ++ c.toString
  else if 0x20 ≤ c.toNat ∧ c.toNat ≤ 0x7E then c.toString
  else byCode c

/-- A text in printable ASCII. -/
def ascii (s : String) : String :=
  String.join (s.toList.map asciiChar)

end Escape

end LongestMatch
