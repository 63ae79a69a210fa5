import LongestMatch.Pattern.Run

/-!
# Reading a pattern by recursive descent

`Descent.parse` reads a pattern with a cursor and hands every instruction to the machine at once,
before it reads on. An alternation reads sequences, a sequence reads operands with their signs, and
an operand in brackets is an alternation again. A refusal of the machine ends everything on the
spot, and leaves the cursor where it is.

`Machine.runPattern` comes to the same with a row of instructions that is there before the machine
starts.
-/

namespace LongestMatch

namespace Pattern

/-- What is carried along: how many characters have been consumed, and the state of the machine. -/
structure Place (σ : Type) where
  consumed : Nat
  state : σ

/-- What reads a part of a pattern. An error leaves the place where it came up. -/
abbrev Parser (σ α : Type) : Type :=
  EStateM Error (Place σ) α

namespace Descent

section Steps

variable {σ α : Type} (machine : Machine σ) (pattern : List Char)

/-! ## The cursor -/

/-- How many characters have been consumed. -/
def cursor : Parser σ Nat :=
  return (← get).consumed

/-- The next character, if there is one. -/
def peek : Parser σ (Option Char) :=
  return pattern[(← get).consumed]?

/-- Consumes a number of characters. -/
def advance (count : Nat) : Parser σ Unit :=
  modify fun place => { place with consumed := place.consumed + count }

/-- Consumes one character if there is a reason for it. -/
def advanceIf (reason : Bool) : Parser σ Unit :=
  if reason then advance 1 else return ()

/-- Consumes the next character, if there is one. -/
def bump : Parser σ (Option Char) := do
  let next ← peek pattern
  advanceIf next.isSome
  return next

/-- Rejects the pattern with a fault at a position. -/
def failAt (fault : Fault) (position : Nat) : Parser σ α :=
  throw (.pattern (Rejection.locate pattern fault position))

/-- Rejects the pattern with a fault at the cursor. -/
def fail (fault : Fault) : Parser σ α := do
  failAt pattern fault (← cursor)

/-- Rejects the pattern unless something is as it has to be. -/
def check (good : Bool) (fault : Fault) (position : Nat) : Parser σ Unit :=
  if good then return () else failAt pattern fault position

/-- There is no reading on: more has been read than the pattern has characters. -/
def exhausted : Parser σ α :=
  throw (.misuse "endless pattern")

/-- Hands an instruction to the machine. -/
def emit (instr : Instr) : Parser σ Unit := do
  let place ← get
  let (state, refused) := machine place.state instr
  set { place with state }
  match refused with
  | none => return ()
  | some error => throw (Machine.refusal pattern place.consumed error)

/-- Hands an instruction to the machine if there is a reason for it. -/
def emitIf (reason : Bool) (instr : Instr) : Parser σ Unit :=
  if reason then emit machine pattern instr else return ()

/-- Does something a number of times. -/
def times (act : Parser σ Unit) : Nat → Parser σ Unit
  | 0 => return ()
  | count + 1 => do
    act
    times act count

/-! ## Escapes and classes -/

/-- Hexadecimal digits after those that make up `code`. The escape begins at `start`. -/
def hexDigits (start : Nat) : Nat → Nat → Parser σ Nat
  | 0, code => return code
  | count + 1, code => do
    match (← bump pattern).bind Glyph.hexValue? with
    | some digit => hexDigits start count (code * 16 + digit)
    | none => failAt pattern .badHexEscape start

/-- The character with a code point of so many hexadecimal digits. -/
def hex (start count : Nat) : Parser σ Char := do
  match scalar? (← hexDigits pattern start count 0) with
  | some c => return c
  | none => failAt pattern .badHexEscape start

/-- The character of an escape that begins at `start`, whose backslash has been consumed. -/
def escape (start : Nat) : Parser σ Char := do
  match ← bump pattern with
  | none => failAt pattern .escapeAtEnd start
  | some 'x' => hex pattern start 2
  | some 'u' => hex pattern start 4
  | some c => return c

/-- The character that begins with `c`, which has been consumed at `start`. -/
def unescape (start : Nat) (c : Char) : Parser σ Char :=
  if c = '\\' then escape pattern start else return c

/-- The range from `lo` on in a class. Its dash has been consumed; the item begins at `start`. -/
def classRange (opened start : Nat) (lo : Char) : Parser σ CharRange := do
  let bound ← cursor
  match ← bump pattern with
  | none => failAt pattern .unexpectedEnd opened
  | some c =>
    if c = ']' then failAt pattern .badRange start
    else do
      let hi ← unescape pattern bound c
      check pattern (lo ≤ hi) .badRange start
      return ⟨lo, hi⟩

/-- The item of a class that begins with the character `c`, consumed at `start`. -/
def classItem (opened start : Nat) (c : Char) : Parser σ CharRange := do
  let lo ← unescape pattern start c
  if (← peek pattern) = some '-' then do
    advance 1
    classRange pattern opened start lo
  else return CharRange.single lo

/-- The items of a class up to its closing bracket. -/
def classItems (opened : Nat) : Nat → Bool → List CharRange → Parser σ (List CharRange)
  | 0, _, _ => exhausted
  | fuel + 1, first, ranges => do
    let start ← cursor
    match ← bump pattern with
    | none => failAt pattern .unexpectedEnd opened
    | some c =>
      if !first && c == ']' then return ranges
      else if !first && c == '-' then failAt pattern .badRange start
      else do
        let range ← classItem pattern opened start c
        classItems opened fuel false (ranges ++ [range])

/-- A class whose opening bracket has been consumed. -/
def charClass (opened : Nat) : Parser σ Unit := do
  let inverted := (← peek pattern) == some '^'
  advanceIf inverted
  let ranges ← classItems pattern opened (pattern.length + 1) true []
  emit machine pattern (.set ranges inverted)

/-! ## Signs -/

/-- The value of a decimal digit. -/
def digit? (c : Char) : Option Nat :=
  if '0' ≤ c ∧ c ≤ '9' then some (c.toNat - '0'.toNat) else none

/-- Decimal digits after those that make up `value`. There is no number if it is too great. -/
def digits : Nat → Nat → Parser σ (Option Nat)
  | 0, _ => exhausted
  | fuel + 1, value => do
    match (← peek pattern).bind digit? with
    | none => return some value
    | some digit =>
      if Lexeme.maxBound < value * 10 + digit then return none
      else do
        advance 1
        digits fuel (value * 10 + digit)

/-- A number, of one digit at least. -/
def number : Parser σ Nat := do
  let start ← cursor
  match ← digits pattern (pattern.length + 1) 0 with
  | none => fail pattern .badRepeat
  | some value => do
    let stop ← cursor
    check pattern (start < stop) .badRepeat stop
    return value

/-- The upper bound of a repetition, if there is one. -/
def upperBound (min : Nat) : Parser σ (Option Nat) := do
  if (← peek pattern) = some ',' then do
    advance 1
    if ((← peek pattern).bind digit?).isSome then do
      let max ← number pattern
      return some max
    else return none
  else return some min

/-- The bounds of a repetition, whose opening brace at `opened` has been consumed. -/
def bounds (opened : Nat) : Parser σ (Nat × Option Nat) := do
  let min ← number pattern
  let max ← upperBound pattern min
  check pattern ((← bump pattern) == some '\x7d') .missingBrace opened
  check pattern (Lexeme.boundsInOrder min max) .badRepeat opened
  return (min, max)

/-- Turns the operand on top into `max` copies, of which those after the first `min` are options. -/
def bounded (min max : Nat) : Parser σ Unit := do
  times (emit machine pattern .dup) (max - 1)
  if min < max then do
    emit machine pattern (.unary .optional)
    times (do emit machine pattern .seq; emit machine pattern (.unary .optional)) (max - min - 1)
    times (emit machine pattern .seq) min
  else times (emit machine pattern .seq) (min - 1)

/-- Turns the operand on top into `min` copies followed by any number of further ones. -/
def unbounded (min : Nat) : Parser σ Unit := do
  times (emit machine pattern .dup) min
  emit machine pattern (.unary .star)
  times (emit machine pattern .seq) min

/-- A repetition, whose opening brace at `opened` has been consumed. -/
def repetition (opened : Nat) : Parser σ Unit := do
  match ← bounds pattern opened with
  | (min, some max) => bounded machine pattern min max
  | (min, none) => unbounded machine pattern min

/-- The signs after an operand. -/
def signs : Nat → Parser σ Unit
  | 0 => exhausted
  | fuel + 1 => do
    let start ← cursor
    match ← peek pattern with
    | none => return ()
    | some c =>
      if c = '\x7b' then do
        advance 1
        repetition machine pattern start
        signs fuel
      else
        match Unary.ofSign? c with
        | none => return ()
        | some op => do
          advance 1
          emit machine pattern (.unary op)
          signs fuel

/-! ## Sequences and alternatives -/

/-- Joins one more operand to the `items` that the sequence has, and gives their number then. -/
def append (items : Nat) : Parser σ Nat := do
  emitIf machine pattern (0 < items) .seq
  return items + 1

/-- Consumes the characters that stand for themselves, up to the next one that does not. -/
def literalRun : Parser σ (List Char) := do
  let start ← cursor
  let run := (pattern.drop start).takeWhile fun c => !Lexeme.isSpecial c
  advance run.length
  return run

/-- A text as an operand of a sequence. -/
def text (items : Nat) (chars : List Char) : Parser σ Nat := do
  emit machine pattern (.text (String.ofList chars))
  append machine pattern items

/-- The characters before the one that signs apply to, if there are any. -/
def textBefore (items : Nat) (run : List Char) : Parser σ Nat :=
  if 1 < run.length then text machine pattern items run.dropLast else return items

/-- Characters that stand for themselves, as operands of a sequence. A sign after them applies to
the last one only. -/
def literal (fuel items : Nat) : Parser σ Nat := do
  let run ← literalRun pattern
  if (← peek pattern).any Lexeme.isSign then do
    let items ← textBefore machine pattern items run
    emit machine pattern (.text (String.ofList (run.drop (run.length - 1))))
    signs machine pattern fuel
    append machine pattern items
  else text machine pattern items run

mutual

/-- Sequences with bars between them, within `depth` open groups. -/
def alternation : Nat → Nat → Parser σ Unit
  | 0, _ => exhausted
  | fuel + 1, depth => do
    sequence fuel depth 0
    alternatives fuel depth
termination_by structural fuel => fuel

/-- What follows the first sequence of an alternation. -/
def alternatives : Nat → Nat → Parser σ Unit
  | 0, _ => exhausted
  | fuel + 1, depth => do
    if (← peek pattern) = some '|' then do
      advance 1
      sequence fuel depth 0
      emit machine pattern .or
      alternatives fuel depth
    else return ()
termination_by structural fuel => fuel

/-- The operands of a sequence after the first `items`. -/
def sequence : Nat → Nat → Nat → Parser σ Unit
  | 0, _, _ => exhausted
  | fuel + 1, depth, items => do
    match ← peek pattern with
    | none => if items = 0 then fail pattern .unexpectedEnd else return ()
    | some c =>
      if c = '|' then
        if items = 0 then fail pattern .unexpectedChar else return ()
      else if c = ')' then
        if items = 0 then fail pattern (if depth = 0 then .unmatchedClose else .unexpectedChar)
        else return ()
      else if Lexeme.isSign c then fail pattern .unexpectedChar
      else if Lexeme.isSpecial c then do
        operand fuel depth
        signs machine pattern fuel
        let items ← append machine pattern items
        sequence fuel depth items
      else do
        let items ← literal machine pattern fuel items
        sequence fuel depth items
termination_by structural fuel => fuel

/-- An operand that does not stand for itself. -/
def operand : Nat → Nat → Parser σ Unit
  | 0, _ => exhausted
  | fuel + 1, depth => do
    let start ← cursor
    match ← bump pattern with
    | some '(' => do
      let report := (← peek pattern) == some '!'
      advanceIf report
      alternation fuel (depth + 1)
      check pattern ((← bump pattern) == some ')') .unmatchedOpen start
      emitIf machine pattern report .group
    | some '[' => charClass machine pattern start
    | some '.' => emit machine pattern .any
    | some '\\' => do
      let c ← escape pattern start
      emit machine pattern (.text (String.ofList [c]))
    | _ => failAt pattern .unexpectedChar start
termination_by structural fuel => fuel

end

/-- Reads the whole pattern. -/
def parse : Parser σ Unit := do
  alternation machine pattern (3 * pattern.length + 2) 0
  let stop ← cursor
  check pattern (← peek pattern).isNone .trailingText stop

end Steps

/-- Reads a pattern: the state of the machine afterwards, how many characters have been consumed,
and the first error, be it a refusal or a fault of the pattern. -/
def read {σ : Type} (machine : Machine σ) (s : σ) (pattern : String) : σ × Nat × Option Error :=
  match parse machine pattern.toList ⟨0, s⟩ with
  | .ok _ place => (place.state, place.consumed, none)
  | .error error place => (place.state, place.consumed, some error)

end Descent

end Pattern

end LongestMatch
