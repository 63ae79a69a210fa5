import LongestMatch.CharRange

/-!
# Partitions of the code points

`Intervals α` cuts the code points `0 … maxCode` into runs, each of which carries a value or is
unset. Values are written range by range: a write cuts the runs at its two ends and then changes the
ones inside. The runs are kept as the list of their first code points, so that they cover everything
without gaps or overlap by construction; a run ends where the next one begins.

Read as a map (`get`), a write changes exactly the code points of its range. `toTransitions` turns a
partition by target states into the shortest list of transitions.
-/

namespace LongestMatch

/-- A run of code points, from `start` up to the next run. -/
structure Run (α : Type) where
  start : Nat
  value : Option α

/-- The code points cut into runs, ordered by their starts; the first run starts at 0. -/
structure Intervals (α : Type) where
  runs : List (Run α)

/-- A run with both of its bounds. -/
structure Segment (α : Type) where
  lo : Nat
  hi : Nat
  value : Option α

/-- The characters of a segment with its target, unless it is unset or holds surrogates only. -/
def Segment.transition? (s : Segment Nat) : Option Transition :=
  match s.value, CharRange.ofCodes? s.lo s.hi with
  | some target, some range => some ⟨range, target⟩
  | _, _ => none

namespace Intervals

variable {α : Type}

/-- One unset run. -/
def unset : Intervals α :=
  ⟨[⟨0, none⟩]⟩

/-- Cuts the runs so that one of them starts at `code`. -/
def cut (code : Nat) : List (Run α) → List (Run α)
  | [] => []
  | [r] => if r.start < code then [r, ⟨code, r.value⟩] else [r]
  | r :: next :: rest =>
    if r.start < code ∧ code < next.start then r :: ⟨code, r.value⟩ :: next :: rest
    else r :: cut code (next :: rest)

/-- Cuts at `code`, if it is a code point at all. -/
def split (code : Nat) (iv : Intervals α) : Intervals α :=
  if code ≤ maxCode then ⟨cut code iv.runs⟩ else iv

/-- Applies `f` to the value of the code points from `lo` to `hi`. -/
def update (iv : Intervals α) (lo hi : Nat) (f : Option α → Option α) : Intervals α :=
  if lo ≤ hi then
    ⟨((iv.split lo).split (hi + 1)).runs.map fun r =>
      if lo ≤ r.start ∧ r.start ≤ hi then { r with value := f r.value } else r⟩
  else iv

/-- Gives the code points from `lo` to `hi` the value `a`. -/
def overwrite (iv : Intervals α) (lo hi : Nat) (a : α) : Intervals α :=
  iv.update lo hi fun _ => some a

/-- Gives the value `a` to everything that is unset. -/
def fillUnset (iv : Intervals α) (a : α) : Intervals α :=
  ⟨iv.runs.map fun r => { r with value := some (r.value.getD a) }⟩

/-- The value of a code point: that of the last run that starts at or before it. -/
def get (iv : Intervals α) (code : Nat) : Option α :=
  ((iv.runs.takeWhile fun r => r.start ≤ code).getLast?).bind Run.value

/-- Gives each run its upper bound. -/
def segmentsOf : List (Run α) → List (Segment α)
  | [] => []
  | [r] => [⟨r.start, maxCode, r.value⟩]
  | r :: next :: rest => ⟨r.start, next.start - 1, r.value⟩ :: segmentsOf (next :: rest)

/-- The runs with both bounds, unset ones included. -/
def segments (iv : Intervals α) : List (Segment α) :=
  segmentsOf iv.runs

/-! ## Partitions by target state -/

/-- The transitions of a partition, sorted and with neighbours joined. -/
def toTransitions (iv : Intervals Nat) : List Transition :=
  Transition.join (iv.segments.filterMap Segment.transition?)

/-- The partition that a list of transitions describes, later entries over earlier ones. -/
def ofTransitions (ts : List Transition) : Intervals Nat :=
  ts.foldl (fun iv t => iv.overwrite t.lo.toNat t.hi.toNat t.target) unset

end Intervals

end LongestMatch
