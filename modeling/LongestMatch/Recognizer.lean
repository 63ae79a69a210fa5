import LongestMatch.Nfa.Basic
import LongestMatch.Subset.Exploration

/-!
# Deterministic recognizers

A `Recognizer` tells for each string whether it is in a language, and nothing else: it is the subset
construction of an automaton in which every state with an action accepts, and the last state too.
With at most one way for each string, operations on languages become operations on the graph:
complement exchanges accepting and other states, stopping at the first accepted string takes edges
away, and accepting every string that can still be completed follows edges backwards.
-/

namespace LongestMatch

/-- A graph with accepting states; strings are read from state 0. -/
structure Recognizer where
  edges : Array (List Transition)
  accepting : Array Bool

namespace Recognizer

/-- The recognizer that accepts nothing. -/
def nothing : Recognizer :=
  ⟨Array.singleton [], Array.singleton false⟩

/-- The number of states. -/
def size (g : Recognizer) : Nat :=
  g.edges.size

/-- The edges of one state. -/
def edgesOf (g : Recognizer) (id : Nat) : List Transition :=
  g.edges.getD id []

/-- Whether a state accepts. -/
def accepts (g : Recognizer) (id : Nat) : Bool :=
  g.accepting.getD id false

/-- Whether a set of states of an automaton counts as accepting. -/
def acceptsSet (nfa : Nfa) (set : List Nat) : Bool :=
  set.any fun id => id == nfa.last || (nfa.state id).action.isSome

/-- The recognizer of the strings that lead to the last state or to a state with an action. -/
def ofNfa (nfa : Nfa) : Recognizer :=
  let found := nfa.exploreSubsets (some nfa.last)
  let accepting := found.nodes.map (acceptsSet nfa)
  if accepting.any id then ⟨found.edges.map nfa.rowOf, accepting⟩ else nothing

/-! ## Operations on the graph -/

/-- Sends every character that leads nowhere to a further state that cannot be left. -/
def complete (g : Recognizer) : Recognizer :=
  let sink := g.size
  let rows := g.edges.map fun ts => ((Intervals.ofTransitions ts).fillUnset sink).toTransitions
  let always : Intervals Nat := Intervals.unset.overwrite 0 maxCode sink
  ⟨rows.push always.toTransitions, g.accepting.push false⟩

/-- Exchanges accepting and other states. -/
def flip (g : Recognizer) : Recognizer :=
  { g with accepting := g.accepting.map not }

/-- Takes the edges of accepting states away. -/
def stopAtAccepting (g : Recognizer) : Recognizer :=
  { g with edges := g.edges.mapIdx fun id ts => if g.accepts id then [] else ts }

/-- For each state the states with an edge to it. -/
def predecessors (g : Recognizer) : Array (List Nat) :=
  (List.range g.size).foldl
    (fun table id => (g.edgesOf id).foldl (fun table t => table.modify t.target (id :: ·)) table)
    (Array.replicate g.size [])

/-- The states from which an accepting state can be reached. -/
def live (g : Recognizer) : StateSet g.size :=
  let before := g.predecessors
  (StateSet.empty g.size).reach (fun id => before.getD id [])
    ((List.range g.size).filter g.accepts)

/-- Takes away the edges from which no accepting state can be reached. -/
def prune (g : Recognizer) : Recognizer :=
  let live := g.live
  { g with edges := g.edges.map fun ts => ts.filter fun t => live.contains t.target }

/-- Makes every state accept that can be reached. -/
def acceptReachable (g : Recognizer) : Recognizer :=
  let seen := (StateSet.empty g.size).reach (fun id => (g.edgesOf id).map Transition.target) [0]
  { g with accepting := g.accepting.mapIdx fun id accepts => accepts || seen.contains id }

/-! ## Back to an automaton -/

/-- The automaton whose strings from start to last are the accepted ones, or with `allowEmpty` false
those of them that are not empty. -/
def toNfa (g : Recognizer) (config : Config) (allowEmpty : Bool) : Nfa :=
  let start := g.size
  let last := g.size + 1
  let inner := g.edges.mapIdx fun id ts =>
    ({ trans := ts, eps := if g.accepts id then [last] else [] } : State)
  let entry : State := if allowEmpty then { eps := [0] } else { trans := g.edgesOf 0 }
  { states := (inner.push entry).push {}, start, last, config }

end Recognizer

end LongestMatch
