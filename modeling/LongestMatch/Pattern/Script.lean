import LongestMatch.Pattern.Lexeme

/-!
# From a pattern to instructions

A pattern is an alternation of sequences, a sequence is one operand after another, each followed by
its signs, and an operand may be a pattern in brackets. Reading the lexemes from left to right
yields the instructions in the order of their execution: an operand is pushed at once, signs act on
the operand on top, and an operand is joined to what the sequence holds already as soon as no
further sign can follow it. If the pattern is malformed, the instructions up to the fault are kept.

Copies of an operand may be needed in great number, so instructions come in `Stretch`es that say how
often they are repeated.
-/

namespace LongestMatch

namespace Pattern

/-- Instructions that are carried out `times` times in a row. -/
structure Stretch where
  instrs : List Instr
  times : Nat
  /-- Up to which position the pattern has been read at that point. -/
  position : Nat
deriving DecidableEq

namespace Stretch

/-- One instruction, once. -/
def single (instr : Instr) (position : Nat) : Stretch :=
  ⟨[instr], 1, position⟩

/-- The instructions without abbreviation. -/
def expand (s : Stretch) : List Instr :=
  (List.replicate s.times s.instrs).flatten

end Stretch

/-- The instructions of a pattern, and its first fault with the position, if there is one. -/
structure Script where
  stretches : List Stretch
  fault : Option (Fault × Nat)
deriving DecidableEq

namespace Script

/-- The instructions without abbreviation. -/
def instrs (script : Script) : List Instr :=
  script.stretches.flatMap Stretch.expand

/-- Puts instructions in front. -/
def prepend (stretches : List Stretch) (script : Script) : Script :=
  { script with stretches := stretches ++ script.stretches }

end Script

/-! ## Repetitions -/

/-- Turns the operand on top into `max` copies in a row, of which those after the first `min` are
nested options: two to four copies are `x x (x x?)?`. -/
def bounded (min max position : Nat) : List Stretch :=
  let copies : Stretch := ⟨[.dup], max - 1, position⟩
  if min < max then
    [copies, .single (.unary .optional) position,
      ⟨[.seq, .unary .optional], max - min - 1, position⟩, ⟨[.seq], min, position⟩]
  else [copies, ⟨[.seq], min - 1, position⟩]

/-- Turns the operand on top into `min` copies followed by any number of further ones. -/
def unbounded (min position : Nat) : List Stretch :=
  [⟨[.dup], min, position⟩, .single (.unary .star) position, ⟨[.seq], min, position⟩]

/-- Repeats the operand on top. -/
def repetition (min : Nat) (max : Option Nat) (position : Nat) : List Stretch :=
  match max with
  | some max => bounded min max position
  | none => unbounded min position

/-! ## Reading -/

/-- How far an alternation has been read. -/
structure Level where
  /-- Earlier alternatives are on the stack. -/
  alternatives : Bool := false
  /-- Earlier operands of the sequence are on the stack. -/
  begun : Bool := false
  /-- An operand on top has not been joined to the sequence; a sign may follow it. -/
  loose : Bool := false
deriving DecidableEq

/-- A group that is open, and what it interrupts. -/
structure OpenGroup where
  outer : Level
  report : Bool
  /-- Where its bracket is. -/
  position : Nat
deriving DecidableEq

/-- How far a pattern has been read. -/
structure Progress where
  level : Level := {}
  /-- The open groups, the innermost one first. -/
  groups : List OpenGroup := []
  /-- Where the latest lexeme ends. -/
  position : Nat := 0
deriving DecidableEq

namespace Progress

/-- Joins the operand on top to the sequence; no sign follows it. -/
def settle (p : Progress) : List Stretch × Progress :=
  if p.level.loose then
    ((if p.level.begun then [.single .seq p.position] else []),
      { p with level := { p.level with begun := true, loose := false } })
  else ([], p)

/-- Joins the sequence, which has been settled, to the earlier alternatives. -/
def endSequence (p : Progress) : List Stretch :=
  if p.level.alternatives then [.single .or p.position] else []

/-- What a sign does, if there is an operand that it can follow. -/
def sign (p : Progress) (l : Lexeme) (stretches : List Stretch) :
    List Stretch × Except (Fault × Nat) Progress :=
  if p.level.loose then (stretches, .ok { p with position := l.stop })
  else ([], .error (.unexpectedChar, l.start))

/-- Ends the innermost group, or finds that none is open. The sequence has been settled. -/
def close (p : Progress) (l : Lexeme) : List Stretch × Except (Fault × Nat) Progress :=
  match p.groups with
  | [] =>
    if p.level.begun then (p.endSequence, .error (.trailingText, l.start))
    else ([], .error (.unmatchedClose, l.start))
  | g :: outer =>
    if p.level.begun then
      (p.endSequence ++ (if g.report then [.single .group l.stop] else []),
        .ok { level := { g.outer with loose := true }, groups := outer, position := l.stop })
    else ([], .error (.unexpectedChar, l.start))

/-- What a lexeme that is no sign does. The sequence has been settled. -/
def proceed (p : Progress) (l : Lexeme) : List Stretch × Except (Fault × Nat) Progress :=
  match l.kind with
  | .operand instr =>
    ([.single instr l.stop],
      .ok { p with level := { p.level with loose := true }, position := l.stop })
  | .openGroup report =>
    ([], .ok
      { level := {}, groups := ⟨p.level, report, l.start⟩ :: p.groups, position := l.stop })
  | .bar =>
    if p.level.begun then
      (p.endSequence, .ok { p with level := { alternatives := true }, position := l.stop })
    else ([], .error (.unexpectedChar, l.start))
  | .closeGroup => p.close l
  | .badOperand fault position => ([], .error (fault, position))
  | _ => ([], .ok p)

/-- What a lexeme does: the instructions it adds, and how far the pattern has been read then. -/
def step (p : Progress) (l : Lexeme) : List Stretch × Except (Fault × Nat) Progress :=
  match l.kind with
  | .unary op => p.sign l [.single (.unary op) l.stop]
  | .bounds min max => p.sign l (repetition min max l.stop)
  | .badBounds fault position =>
    if p.level.loose then ([], .error (fault, position))
    else ([], .error (.unexpectedChar, l.start))
  | _ =>
    let (joined, settled) := p.settle
    let (stretches, result) := settled.proceed l
    (joined ++ stretches, result)

/-- What the end of the pattern does. -/
def finish (p : Progress) : Script :=
  let (joined, settled) := p.settle
  if settled.level.begun then
    ⟨joined ++ settled.endSequence,
      settled.groups.head?.map fun g => (.unmatchedOpen, g.position)⟩
  else ⟨joined, some (.unexpectedEnd, settled.position)⟩

/-- The instructions of the lexemes that are still to be read. -/
def read (p : Progress) : List Lexeme → Script
  | [] => p.finish
  | l :: rest =>
    match p.step l with
    | (stretches, .ok p) => (p.read rest).prepend stretches
    | (stretches, .error fault) => ⟨stretches, some fault⟩

end Progress

/-- The instructions of a pattern. -/
def Script.ofChars (pattern : List Char) : Script :=
  Progress.read {} (Lexeme.ofGlyphs (Glyph.ofChars 0 pattern))

end Pattern

end LongestMatch
