import LongestMatch.CharRange
import LongestMatch.Pattern.Error

/-!
# Glyphs of a pattern

A pattern is read as a row of glyphs: characters that may have a meaning of their own, and escapes,
which stand for a character without any. An escape is a backslash followed by a character; after
`\x` two and after `\u` four hexadecimal digits give the code point. Where an escape is malformed
the row ends with a broken glyph, since nothing can be read beyond it.
-/

namespace LongestMatch

namespace Pattern

/-- What a glyph is. -/
inductive Glyph.Kind where
  /-- A character as it is. -/
  | plain (c : Char)
  /-- A character written as an escape. -/
  | escaped (c : Char)
  /-- A malformed escape. -/
  | broken (fault : Fault)
deriving DecidableEq

/-- A glyph with the positions where it begins and where the next one does. -/
structure Glyph where
  kind : Glyph.Kind
  start : Nat
  stop : Nat
deriving DecidableEq

namespace Glyph

/-- The value of a hexadecimal digit. -/
def hexValue? (c : Char) : Option Nat :=
  if '0' ≤ c ∧ c ≤ '9' then some (c.toNat - '0'.toNat)
  else if 'a' ≤ c ∧ c ≤ 'f' then some (c.toNat - 'a'.toNat + 10)
  else if 'A' ≤ c ∧ c ≤ 'F' then some (c.toNat - 'A'.toNat + 10)
  else none

/-- The character whose code point has these hexadecimal digits. -/
def hexChar? (digits : List Char) : Option Char := do
  let values ← digits.mapM hexValue?
  scalar? (values.foldl (fun code value => code * 16 + value) 0)

/-- The glyphs of a text that begins at a position. -/
def ofChars (position : Nat) : List Char → List Glyph
  | [] => []
  | ['\\'] => [⟨.broken .escapeAtEnd, position, position + 1⟩]
  | '\\' :: 'x' :: a :: b :: rest =>
    match hexChar? [a, b] with
    | some c => ⟨.escaped c, position, position + 4⟩ :: ofChars (position + 4) rest
    | none => [⟨.broken .badHexEscape, position, position + 4⟩]
  | '\\' :: 'x' :: _ => [⟨.broken .badHexEscape, position, position + 2⟩]
  | '\\' :: 'u' :: a :: b :: c :: d :: rest =>
    match hexChar? [a, b, c, d] with
    | some c => ⟨.escaped c, position, position + 6⟩ :: ofChars (position + 6) rest
    | none => [⟨.broken .badHexEscape, position, position + 6⟩]
  | '\\' :: 'u' :: _ => [⟨.broken .badHexEscape, position, position + 2⟩]
  | '\\' :: c :: rest => ⟨.escaped c, position, position + 2⟩ :: ofChars (position + 2) rest
  | c :: rest => ⟨.plain c, position, position + 1⟩ :: ofChars (position + 1) rest

/-- Whether the glyph is this character as it is. -/
def is (g : Glyph) (c : Char) : Bool :=
  g.kind == .plain c

/-- The value of a decimal digit. -/
def digit? (g : Glyph) : Option Nat :=
  match g.kind with
  | .plain c => if '0' ≤ c ∧ c ≤ '9' then some (c.toNat - '0'.toNat) else none
  | _ => none

/-- The character of a glyph, or the fault of a broken one. -/
def char (g : Glyph) : Except (Fault × Nat) Char :=
  match g.kind with
  | .plain c => .ok c
  | .escaped c => .ok c
  | .broken fault => .error (fault, g.start)

end Glyph

end Pattern

end LongestMatch
