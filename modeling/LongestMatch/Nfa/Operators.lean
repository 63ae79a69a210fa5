import LongestMatch.Nfa.Basic

/-!
# The algebra of automata

Alternatives, sequences, repetitions, reporting groups and actions. Two rules hold for every
automaton built here: no edge leads to `start`, and none leads away from `last`. They allow states
to be put together where a silent edge would do the same.

An operator with two operands moves the reachable states of the second one into the first
(`absorb`), behind the states that are there already.
-/

namespace LongestMatch

/-- How many reporting groups one action may have. -/
def maxGroups : Nat := 128

/-- The operands of an operator have too many reporting groups. -/
inductive GroupOverflow where
  | tooManyGroups
deriving DecidableEq

namespace Nfa

/-! ## Putting automata together -/

/-- The states of `nfa` behind the states in `row`, its unbound groups after `offset` others: the
longer row, and what the start and the last state are called there. -/
def absorb (row : Array State) (nfa : Nfa) (offset : Nat) : Array State × Nat × Nat :=
  let moved := nfa.reachable [nfa.start, nfa.last]
  let rename id := row.size + (moved.rank? id).getD 0
  let states := moved.toList.map fun id => (nfa.state id).relocate rename offset
  (row ++ states, rename nfa.start, rename nfa.last)

/-- The automaton with its reachable states only, numbered in order of discovery. -/
def copy (nfa : Nfa) : Nfa :=
  let (states, start, last) := absorb Array.empty nfa 0
  { nfa with states, start, last }

/-- The first automaton with the states of the second one behind its own, and what the start and the
last state of the second are called there. -/
def takeIn (nfa other : Nfa) : Except GroupOverflow (Nfa × Nat × Nat) :=
  let total := nfa.nextGroup + other.nextGroup
  if maxGroups < total then .error .tooManyGroups
  else
    let (states, start, last) := absorb nfa.states other nfa.nextGroup
    .ok ({ nfa with states, nextGroup := total }, start, last)

/-- Lets paths go on from `source` to `goal`, a state that no edge leads to. Where one of the two
carries nothing but silent edges, or nothing at all, it is merged with the other. -/
def join (nfa : Nfa) (source goal : Nat) : Nfa :=
  let before := nfa.state source
  let after := nfa.state goal
  if !after.isImportant then
    (nfa.modify goal fun s => { s with eps := [] }).modify source (State.addEps after.eps)
  else if before.isBare then
    (nfa.modify goal fun _ => {}).modify source fun _ => after
  else nfa.modify source (State.addEps [goal])

/-- A string of `nfa` followed by one of `other`. -/
def seq (nfa other : Nfa) : Except GroupOverflow Nfa := do
  let (both, start, last) ← nfa.takeIn other
  return { both.join both.last start with last }

/-- A new start state with edges to both starts, or the first start where it can serve. -/
def joinStarts (nfa : Nfa) (other : Nat) : Nfa :=
  if (nfa.state nfa.start).isNeutral then nfa.join nfa.start other
  else
    { nfa with
      states := nfa.states.push { eps := [nfa.start, other] }
      start := nfa.states.size }

/-- A last state that is reached from both last states. It has no action, so that no action spreads
from one alternative to the other. -/
def joinLasts (nfa : Nfa) (other : Nat) : Nfa :=
  if (nfa.state nfa.last).isNeutral then nfa.modify other (State.addEps [nfa.last])
  else if (nfa.state other).isNeutral then
    { nfa.modify nfa.last (State.addEps [other]) with last := other }
  else
    let fresh := nfa.states.size
    let grown := { nfa with states := nfa.states.push {} }
    { (grown.modify nfa.last (State.addEps [fresh])).modify other (State.addEps [fresh]) with
      last := fresh }

/-- A string of either automaton. -/
def or (nfa other : Nfa) : Except GroupOverflow Nfa := do
  let (both, start, last) ← nfa.takeIn other
  return (both.joinStarts start).joinLasts last

/-! ## Repetition -/

/-- The automaton between two new states, with a way back; `skip` adds the empty string. -/
def loop (nfa : Nfa) (skip : Bool) : Nfa :=
  let start := nfa.states.size
  let last := start + 1
  let entry : State := { eps := if skip then [nfa.start, last] else [nfa.start] }
  let grown := { nfa with states := (nfa.states.push entry).push {} }
  { grown.modify nfa.last (State.addEps [nfa.start, last]) with start, last }

/-- Any number of strings in a row. -/
def star (nfa : Nfa) : Nfa :=
  nfa.loop true

/-- One string or more in a row. -/
def plus (nfa : Nfa) : Nfa :=
  nfa.loop false

/-- A string or the empty one. -/
def optional (nfa : Nfa) : Nfa :=
  nfa.modify nfa.start (State.addEps [nfa.last])

/-! ## Groups and actions -/

/-- The marker of a state that lies on a path from the start to the last state. -/
def roleOf (nfa : Nfa) (group id : Nat) : Marker :=
  if id = nfa.start then Marker.starting group
  else if id = nfa.last then Marker.stopping group
  else Marker.within group

/-- Makes all that lies between start and last a reporting group. -/
def markGroup (nfa : Nfa) : Except GroupOverflow Nfa :=
  if maxGroups ≤ nfa.nextGroup then .error .tooManyGroups
  else
    let forward := (nfa.reachable [nfa.start]).toList
    let backward := nfa.coReachable forward nfa.last
    let within := forward.filter backward.contains
    .ok
      { nfa.modifyAll within fun id => State.addMarker (nfa.roleOf nfa.nextGroup id) with
        nextGroup := nfa.nextGroup + 1 }

/-- Makes the last state accept with an action, which takes over the unbound groups. -/
def addAction (nfa : Nfa) (action : ActionId) : Nfa :=
  let armed := nfa.modify nfa.last fun s => { s with action := some action }
  { armed.modifyAll (armed.reachable [armed.start]).toList fun _ => State.bind action with
    nextGroup := 0 }

end Nfa

end LongestMatch
