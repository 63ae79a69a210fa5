import LongestMatch.Config
import LongestMatch.CharRange
import LongestMatch.Group.Marker
import LongestMatch.StateSet

/-!
# Automata under construction

An `Nfa` is a row of states that refer to each other by number, with the two states `start` and
`last` between which its strings lead. A state has transitions on characters, silent edges (`eps`),
perhaps an action, and markers of reporting groups. States that nothing leads to any more stay in
the row; `reachable` gives the ones that count, in the order of discovery.
-/

namespace LongestMatch

/-- A state of an automaton under construction. -/
structure State where
  /-- Transitions, sorted by characters and without overlap. -/
  trans : List Transition := []
  /-- Silent edges. -/
  eps : List Nat := []
  action : Option ActionId := none
  marks : Marks := {}
deriving Inhabited

namespace State

/-- Whether the state is more than a stop between silent edges. -/
def isImportant (s : State) : Bool :=
  !s.trans.isEmpty || s.action.isSome || !s.marks.isEmpty

/-- Whether nothing is attached to the state at all. -/
def isBare (s : State) : Bool :=
  s.trans.isEmpty && s.eps.isEmpty && s.action.isNone && s.marks.isEmpty

/-- Whether paths may be led through the state without picking up an action or a group. -/
def isNeutral (s : State) : Bool :=
  s.action.isNone && s.marks.isEmpty

/-- All states that an edge leads to. -/
def targets (s : State) : List Nat :=
  s.trans.map Transition.target ++ s.eps

/-- Adds silent edges after those there are. -/
def addEps (ids : List Nat) (s : State) : State :=
  { s with eps := s.eps ++ ids }

/-- Adds an unbound marker. -/
def addMarker (m : Marker) (s : State) : State :=
  { s with marks := s.marks.add none [m] }

/-- Hands the unbound markers over to an action. -/
def bind (action : ActionId) (s : State) : State :=
  { s with marks := s.marks.bind action }

/-- The state as it is in another automaton, where its targets have other numbers and the unbound
groups come after `offset` others. -/
def relocate (rename : Nat → Nat) (offset : Nat) (s : State) : State :=
  { s with
    trans := s.trans.map (Transition.retarget rename)
    eps := s.eps.map rename
    marks := s.marks.shiftUnbound offset }

end State

/-- An automaton under construction. -/
structure Nfa where
  states : Array State
  start : Nat
  last : Nat
  /-- The number of the next unbound group. -/
  nextGroup : Nat := 0
  config : Config := {}
deriving Inhabited

namespace Nfa

/-- The state of a number. -/
def state (nfa : Nfa) (id : Nat) : State :=
  nfa.states.getD id {}

/-- Changes one state. -/
def modify (nfa : Nfa) (id : Nat) (f : State → State) : Nfa :=
  { nfa with states := nfa.states.modify id f }

/-- Changes the states of a list of numbers. -/
def modifyAll (nfa : Nfa) (ids : List Nat) (f : Nat → State → State) : Nfa :=
  ids.foldl (fun nfa id => nfa.modify id (f id)) nfa

/-- The automaton that matches nothing: two states without an edge. -/
def empty (config : Config) : Nfa :=
  { states := Array.replicate 2 {}, start := 0, last := 1, config }

/-! ## Reachability -/

/-- The states that some path from `roots` leads to, in order of discovery. -/
def reachable (nfa : Nfa) (roots : List Nat) : StateSet nfa.states.size :=
  (StateSet.empty nfa.states.size).reach (fun id => (nfa.state id).targets) roots

/-- How many states can be reached from the start. -/
def stateCount (nfa : Nfa) : Nat :=
  (nfa.reachable [nfa.start]).size

/-- For each state the members of `ids` with an edge to it. -/
def predecessors (nfa : Nfa) (ids : List Nat) : Array (List Nat) :=
  ids.foldl
    (fun table id =>
      (nfa.state id).targets.foldl (fun table next => table.modify next (id :: ·)) table)
    (Array.replicate nfa.states.size [])

/-- The states from which a path through `ids` leads to `goal`. -/
def coReachable (nfa : Nfa) (ids : List Nat) (goal : Nat) : StateSet nfa.states.size :=
  let before := nfa.predecessors ids
  (StateSet.empty nfa.states.size).reach (fun id => before.getD id []) [goal]

end Nfa

end LongestMatch
