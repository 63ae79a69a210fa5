import LongestMatch.Action.Basic
import LongestMatch.Dfa.Search
import LongestMatch.Text.Escape

/-!
# Clashes of actions

Two actions clash where a string is matched by both and neither prevails. The clashes of an
automaton are reported together: one entry for each pair of actions, in the order in which the pairs
were first met, with a shortest string on which they clash. Where a breadth-first search found the
states tells how far away they are, and by which transitions.
-/

namespace LongestMatch

/-- A transition as text: the character, or the two bounds in brackets. -/
def Transition.text (t : Transition) : String :=
  if t.lo = t.hi then Escape.char t.lo
  else "[" ++ Escape.char t.lo ++ "-" ++ Escape.char t.hi ++ "]"

/-- Two actions that could not be reconciled, by name, and a string that leads to both. -/
structure Clash where
  first : String
  second : String
  /-- The characters and ranges along a shortest way. -/
  path : String
deriving DecidableEq

namespace Clash

/-- A clash as a line of text. -/
def text (c : Clash) : String :=
  c.first ++ " and " ++ c.second ++ " both match \"" ++ c.path ++ "\""

/-- A report of clashes, one per line. -/
def describe (clashes : List Clash) : String :=
  "ambiguous automaton, " ++ toString clashes.length ++ " unresolved action clash(es)" ++
    String.join (clashes.map fun c => "\n  " ++ c.text)

/-- Two actions that clash in a state. -/
structure Found where
  state : Nat
  first : ActionId
  second : ActionId

namespace Found

/-- Whether two clashes are between the same two actions, in either order. -/
def samePair (a b : Found) : Bool :=
  (a.first == b.first && a.second == b.second) || (a.first == b.second && a.second == b.first)

end Found

/-! ## The report -/

/-- Keeps for each pair the clash in the nearest state, the earlier one of two as near, in the order
in which the pairs were met. -/
def keepNearest (depth : Nat → Nat) (c : Found) : List Found → List Found
  | [] => [c]
  | best :: rest =>
    if best.samePair c then
      (if depth best.state ≤ depth c.state then best else c) :: rest
    else best :: keepNearest depth c rest

/-- The report on the clashes found in the states of a graph. -/
def report (catalog : Catalog) (rows : Array (List Transition)) (found : List Found) :
    List Clash :=
  let search := Search.ofRows rows
  let kept := found.foldl (fun best c => keepNearest search.depth c best) []
  kept.map fun c =>
    { first := catalog.describe c.first
      second := catalog.describe c.second
      path := String.join ((search.wayTo (Search.linked_ofRows rows) c.state).map Transition.text) }

end Clash

end LongestMatch
