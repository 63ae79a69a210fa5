import LongestMatch.Error
import LongestMatch.Pattern.Script

/-!
# Carrying out a pattern

The instructions of a pattern go to a machine: a function that takes its state and an instruction
and gives the state after it, and an error if it refuses. The first refusal ends everything. An
overflow of reporting groups is reported as a fault of the pattern, at the column that has been
reached.
-/

namespace LongestMatch

namespace Pattern

/-- A machine with states in `σ`: what an instruction makes of the state, and whether it refuses. -/
abbrev Machine (σ : Type) : Type :=
  σ → Instr → σ × Option Error

namespace Machine

variable {σ : Type}

/-- Carries out instructions up to the first one that is refused. -/
def run (machine : Machine σ) (s : σ) : List Instr → σ × Option Error
  | [] => (s, none)
  | instr :: rest =>
    match machine s instr with
    | (s, none) => machine.run s rest
    | (s, some error) => (s, some error)

/-- Carries out instructions a number of times, up to the first one that is refused. -/
def runTimes (machine : Machine σ) (instrs : List Instr) (s : σ) : Nat → σ × Option Error
  | 0 => (s, none)
  | times + 1 =>
    match machine.run s instrs with
    | (s, none) => machine.runTimes instrs s times
    | (s, some error) => (s, some error)

/-- How a refusal is reported when a pattern has been read up to a position. -/
def refusal (pattern : List Char) (position : Nat) : Error → Error
  | .tooManyGroups => .pattern (Rejection.locate pattern .tooManyGroups position)
  | error => error

/-- Carries out stretches of instructions up to the first one that is refused. -/
def runStretches (machine : Machine σ) (pattern : List Char) (s : σ) :
    List Stretch → σ × Option Error
  | [] => (s, none)
  | stretch :: rest =>
    match machine.runTimes stretch.instrs s stretch.times with
    | (s, none) => machine.runStretches pattern s rest
    | (s, some error) => (s, some (refusal pattern stretch.position error))

/-- Carries out a pattern: the state of the machine after it, and the first error, be it a refusal
or a fault of the pattern. -/
def runPattern (machine : Machine σ) (s : σ) (pattern : String) : σ × Option Error :=
  let chars := pattern.toList
  let script := Script.ofChars chars
  match machine.runStretches chars s script.stretches with
  | (s, some error) => (s, some error)
  | (s, none) =>
    (s, script.fault.map fun f => .pattern (Rejection.locate chars f.1 f.2))

/-- The machine that only writes down its instructions. With a limit it refuses, with the error
given there, what comes after so many. -/
def recorder (limit : Option (Nat × Error)) : Machine (Array Instr) :=
  fun written instr =>
    match limit with
    | some (count, error) =>
      if count ≤ written.size then (written, some error) else (written.push instr, none)
    | none => (written.push instr, none)

end Machine

end Pattern

end LongestMatch
