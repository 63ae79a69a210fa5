import LongestMatch.Group.Marker
import LongestMatch.Text.Offset

/-!
# Spans of reporting groups

A `Span` is one occurrence of a group in a match. The spans are read off the markers met on the way:
at every position the open spans, ordered by group, are compared with the markers of the state
there.

* An open span whose marker is inside the group grows up to the position, and is complete if the
  group may end there.
* An open span whose marker says that the group begins is reported if complete, and begins anew.
* An open span without a marker is over; it is reported if complete.
* A marker without an open span opens one if the group begins there.

Spans are reported in the order in which they end. A group inside a repetition has several.
-/

namespace LongestMatch

/-- An occurrence of a group, by byte offsets. -/
structure Span where
  start : Nat
  stop : Nat
  group : Nat
deriving DecidableEq

namespace Span

/-- The spans of one group. -/
def ofGroup (spans : List Span) (group : Nat) : List Span :=
  spans.filter fun s => s.group = group

/-- The text of a span within `out`, if its offsets are sound there. -/
def text? (s : Span) (out : String) : Option String :=
  Offset.slice? out s.start s.stop

end Span

/-- A group that has begun. -/
structure OpenSpan where
  group : Nat
  start : Nat
  stop : Nat
  complete : Bool
deriving DecidableEq

namespace OpenSpan

/-- A group that begins at a position. -/
def beginAt (group position : Nat) (complete : Bool) : OpenSpan :=
  ⟨group, position, position, complete⟩

/-- What closing a span reports. -/
def close (s : OpenSpan) : List Span :=
  if s.complete then [⟨s.start, s.stop, s.group⟩] else []

/-- A span that goes on under a marker of its group: what is reported and what stays open. -/
def advance (s : OpenSpan) (m : Marker) (position : Nat) : List Span × OpenSpan :=
  let grown := if m.inner then { s with stop := position, complete := s.complete || m.stop } else s
  if m.start then (grown.close, beginAt m.group position false) else ([], grown)

end OpenSpan

namespace Span

/-- One position: what is reported there, and the spans that are open after it. Both lists are in
ascending order of groups. -/
def step (position : Nat) : List OpenSpan → List Marker → List Span × List OpenSpan
  | [], [] => ([], [])
  | s :: opened, [] =>
    let later := step position opened []
    (s.close ++ later.1, later.2)
  | [], m :: markers =>
    let later := step position [] markers
    if m.start then (later.1, OpenSpan.beginAt m.group position m.stop :: later.2) else later
  | s :: opened, m :: markers =>
    if s.group = m.group then
      let now := s.advance m position
      let later := step position opened markers
      (now.1 ++ later.1, now.2 :: later.2)
    else if s.group < m.group then
      let later := step position opened (m :: markers)
      (s.close ++ later.1, later.2)
    else
      let later := step position (s :: opened) markers
      if m.start then (later.1, OpenSpan.beginAt m.group position m.stop :: later.2) else later
termination_by opened markers => opened.length + markers.length

/-- The spans of a way, given as the markers met at each position. -/
def ofTrail (opened : List OpenSpan) : List (Nat × List Marker) → List Span
  | [] => opened.flatMap OpenSpan.close
  | (position, markers) :: rest =>
    let now := step position opened markers
    now.1 ++ ofTrail now.2 rest

end Span

end LongestMatch
