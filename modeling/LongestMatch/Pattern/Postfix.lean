import LongestMatch.Pattern.Instr
import LongestMatch.Text.Escape

/-!
# Instructions as text

A sequence of instructions is written with one word per instruction, separated by blanks: an operand
as a quoted text, a bracketed class or `ANY`, an operator as its sign in patterns or as a name.
-/

namespace LongestMatch

namespace Pattern

/-- A range within brackets. -/
def rangeWord (r : CharRange) : String :=
  if r.lo = r.hi then r.lo.toString else r.lo.toString ++ "-" ++ r.hi.toString

namespace Instr

/-- An instruction as a word. -/
def word : Instr → String
  | set ranges inverted =>
    (if inverted then "[^" else "[") ++ String.join (ranges.map rangeWord) ++ "]"
  | any => "ANY"
  | text s => Escape.quoted s
  | swap => "swap"
  | dup => "dup"
  | or => "or"
  | seq => "seq"
  | unary op => op.sign.toString
  | group => "sub"

/-- A sequence of instructions as text. -/
def render (list : List Instr) : String :=
  " ".intercalate (list.map word)

end Instr

end Pattern

end LongestMatch
