/-!
# Why a pattern is rejected

A rejected pattern is reported with the kind of the fault, its column and the text around it.
-/

namespace LongestMatch

namespace Pattern

/-- What is wrong with a pattern. -/
inductive Fault where
  | unexpectedEnd
  | unmatchedClose
  | unmatchedOpen
  | escapeAtEnd
  | badHexEscape
  | badRange
  | trailingText
  | unexpectedChar
  | missingBrace
  | badRepeat
  | tooManyGroups
deriving DecidableEq

namespace Fault

/-- The fault in words. -/
def text : Fault → String
  | unexpectedEnd => "unexpected end of pattern"
  | unmatchedClose => "unmatched ')'"
  | unmatchedOpen => "unmatched '('"
  | escapeAtEnd => "'\\' at end of pattern"
  | badHexEscape => "malformed hex escape"
  | badRange => "bad character range"
  | trailingText => "trailing characters"
  | unexpectedChar => "unexpected character"
  | missingBrace => "missing '\x7d'"
  | badRepeat => "bad repeat count"
  | tooManyGroups => "too many reporting groups"

end Fault

/-- A fault in a pattern. -/
structure Rejection where
  fault : Fault
  /-- Counted in characters, from 1. -/
  column : Nat
  /-- The pattern around the column. -/
  context : String
deriving DecidableEq

namespace Rejection

/-- How many characters of the pattern are shown to each side of a fault. -/
def contextRadius : Nat := 10

/-- A fault at a position of a pattern; positions count from 0. -/
def locate (pattern : List Char) (fault : Fault) (position : Nat) : Rejection where
  fault
  column := position + 1
  context :=
    String.ofList ((pattern.take (position + contextRadius)).drop (position - contextRadius))

/-- The report on a rejected pattern. -/
def text (r : Rejection) : String :=
  r.fault.text ++ " at column " ++ toString r.column ++ " in `" ++ r.context ++ "`"

end Rejection

end Pattern

end LongestMatch
