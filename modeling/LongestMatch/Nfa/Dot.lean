import LongestMatch.Dfa.Clash
import LongestMatch.Nfa.Basic

/-!
# Pictures of automata under construction

An automaton as a graph description for Graphviz. States are called by their numbers in the row, in
the order of discovery; a state with an action is a double circle, the two ends are boxes, and
silent edges are dashed.
-/

namespace LongestMatch

/-- A line of a graph description. -/
def dotLine (s : String) : String :=
  "  " ++ s ++ ";\n"

/-- A graph description with the given lines. -/
def dotGraph (name : String) (lines : List String) : String :=
  "digraph " ++ name ++ " \x7b\n" ++ dotLine "rankdir=LR" ++ String.join lines ++ "\x7d\n"

/-- An edge between two states, drawn in some way. -/
def dotEdge (letter : String) (source target : Nat) (look : String) : String :=
  dotLine (letter ++ toString source ++ " -> " ++ letter ++ toString target ++ " [" ++ look ++ "]")

/-- A label in printable ASCII. -/
def dotLabel (s : String) : String :=
  "label=\"" ++ Escape.ascii s ++ "\""

namespace Nfa

/-- The shape of a state. -/
def dotShape (nfa : Nfa) (id : Nat) : String :=
  if (nfa.state id).action.isSome then "doublecircle"
  else if id = nfa.start ∨ id = nfa.last then "box"
  else "circle"

/-- The lines of a state and of the edges from it. -/
def dotLines (nfa : Nfa) (id : Nat) : List String :=
  dotLine ("n" ++ toString id ++ " [shape=" ++ nfa.dotShape id ++ "]") ::
    (nfa.state id).trans.map (fun t => dotEdge "n" id t.target (dotLabel t.text)) ++
    (nfa.state id).eps.map (fun next => dotEdge "n" id next "style=dashed")

/-- The graph description. -/
def toDot (nfa : Nfa) : String :=
  dotGraph "nfa" ((nfa.reachable [nfa.start]).toList.flatMap nfa.dotLines)

end Nfa

end LongestMatch
