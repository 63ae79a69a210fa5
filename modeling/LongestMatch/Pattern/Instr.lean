import LongestMatch.CharRange

/-!
# Instructions of a pattern

A pattern is carried out by a machine with a stack of operands. Three instructions push an operand,
the others work on the operands on top: a unary one replaces the top, a binary one takes the right
operand off, then the left one, and pushes the result.
-/

namespace LongestMatch

namespace Pattern

/-- An operator with one operand. -/
inductive Unary where
  | star
  | plus
  | optional
  /-- The strings that contain no match. -/
  | withoutMatch
  /-- The strings that are no match. -/
  | invert
  /-- The matches that do not begin with a shorter one. -/
  | shortest
  /-- What matches begin with, except the empty string. -/
  | allPrefixes
deriving DecidableEq

/-- The sign of an operator in patterns. -/
def Unary.sign : Unary → Char
  | star => '*'
  | plus => '+'
  | optional => '?'
  | withoutMatch => '^'
  | invert => '~'
  | shortest => '!'
  | allPrefixes => '@'

/-- The operator of a sign. -/
def Unary.ofSign? : Char → Option Unary
  | '*' => some star
  | '+' => some plus
  | '?' => some optional
  | '^' => some withoutMatch
  | '~' => some invert
  | '!' => some shortest
  | '@' => some allPrefixes
  | _ => none

/-- An instruction. -/
inductive Instr where
  /-- Pushes one character out of ranges, or with `inverted` one out of none of them. -/
  | set (ranges : List CharRange) (inverted : Bool)
  /-- Pushes any single character. -/
  | any
  /-- Pushes a fixed text. -/
  | text (s : String)
  /-- Exchanges the two operands on top. -/
  | swap
  /-- Pushes a copy of the top. -/
  | dup
  /-- Either operand. -/
  | or
  /-- The left operand followed by the right one. -/
  | seq
  | unary (op : Unary)
  /-- Makes the top a reporting group. -/
  | group
deriving DecidableEq

end Pattern

end LongestMatch
