/-!
# Byte offsets

Lengths and positions in a text are counted in bytes of its UTF-8 form. An offset is sound if it
lies on the boundary between two characters or at an end; `cut?` succeeds at the sound offsets only.
-/

namespace LongestMatch

namespace Offset

/-- Cuts a list of characters where `offset` bytes have passed, if that is a boundary. -/
def cutChars? : List Char → Nat → Option (List Char × List Char)
  | rest, 0 => some ([], rest)
  | [], _ + 1 => none
  | c :: rest, offset + 1 =>
    if c.utf8Size ≤ offset + 1 then
      (cutChars? rest (offset + 1 - c.utf8Size)).map fun parts => (c :: parts.1, parts.2)
    else none

/-- The text before and after a byte offset, if the offset is sound. -/
def cut? (s : String) (offset : Nat) : Option (String × String) :=
  (cutChars? s.toList offset).map fun parts => (String.ofList parts.1, String.ofList parts.2)

/-- The text between two sound byte offsets in ascending order. -/
def slice? (s : String) (start stop : Nat) : Option String :=
  if start ≤ stop then do
    let before ← cut? s start
    let within ← cut? before.2 (stop - start)
    return within.1
  else none

end Offset

end LongestMatch
