import LongestMatch.Action.Basic
import LongestMatch.Group.Marker
import LongestMatch.Table

/-!
# Compiled automata

A `Dfa` is ready for matching: at most one way for each string, a transition table in each state,
and for each state the action that a match ending there stands for. It knows the catalog of its
actions, since the groups of a combined action are those of its parts.
-/

namespace LongestMatch

/-- What becomes of a character that no match begins with. -/
inductive FailPolicy where
  /-- It is copied to the output. -/
  | copy
  /-- It is left out. -/
  | drop
  /-- It is an error. -/
  | raise
deriving DecidableEq, Inhabited

/-- A state of a compiled automaton. -/
structure DfaState where
  table : Table := .empty
  /-- The action of a match that ends here. -/
  action : Option ActionId := none
  /-- The bound markers of all the states this one stands for. -/
  marks : Marks := {}
deriving Inhabited

/-- A compiled automaton; matching starts in state 0. -/
structure Dfa where
  states : Array DfaState
  catalog : Catalog
  failPolicy : FailPolicy
  /-- The action for the end of the input, if there is one. -/
  eofAction : Option ActionId

namespace Dfa

/-- The state of a number. -/
def state (dfa : Dfa) (id : Nat) : DfaState :=
  dfa.states.getD id {}

/-- The number of states. -/
def stateCount (dfa : Dfa) : Nat :=
  dfa.states.size

/-- Whether the empty string is matched. -/
def matchesEmpty (dfa : Dfa) : Bool :=
  (dfa.state 0).action.isSome

/-- Whether nothing is ever matched. -/
def isEmpty (dfa : Dfa) : Bool :=
  dfa.states.all fun s => s.action.isNone

/-- Whether any reporting group is left. -/
def hasGroups (dfa : Dfa) : Bool :=
  dfa.states.any fun s => !s.marks.isEmpty

/-- The markers in a state of the groups of an action and of the actions it stands for. -/
def markersFor (dfa : Dfa) (id : Nat) (action : ActionId) : List Marker :=
  let marks := (dfa.state id).marks
  (dfa.catalog.parts action).foldl
    (fun list part => Marker.insertAll list ((marks.markers? (some part)).getD []))
    ((marks.markers? (some action)).getD [])

end Dfa

end LongestMatch
