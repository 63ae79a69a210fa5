import LongestMatch.Dfa.Basic
import LongestMatch.Nfa.Dot

/-!
# Pictures of compiled automata

A compiled automaton as a graph description for Graphviz. There is one arrow for each pair of
states, whose label puts the ranges of all the transitions between them together.
-/

namespace LongestMatch

namespace Dfa

/-- Adds a transition to the arrows that leave a state, which are in the order in which their
targets were first met. -/
def addArrow (t : Transition) : List (Nat × String) → List (Nat × String)
  | [] => [(t.target, t.text)]
  | arrow :: rest =>
    if arrow.1 = t.target then (arrow.1, arrow.2 ++ t.text) :: rest
    else arrow :: addArrow t rest

/-- The arrows that leave a state: where they lead, and their labels. -/
def arrows (ts : List Transition) : List (Nat × String) :=
  ts.foldl (fun arrows t => addArrow t arrows) []

/-- The lines of a state and of the arrows from it. -/
def dotLines (id : Nat) (s : DfaState) : List String :=
  let shape := if s.action.isSome then "doublecircle" else "circle"
  dotLine ("s" ++ toString id ++ " [shape=" ++ shape ++ ", label=\"" ++ toString id ++ "\"]") ::
    (arrows s.table.transitions).map fun arrow => dotEdge "s" id arrow.1 (dotLabel arrow.2)

/-- The graph description. -/
def toDot (dfa : Dfa) : String :=
  dotGraph "dfa" (dfa.states.mapIdx dotLines).toList.flatten

end Dfa

end LongestMatch
