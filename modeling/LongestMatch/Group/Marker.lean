import LongestMatch.Action.Basic

/-!
# Markers of reporting groups

A reporting group is a part of a pattern whose occurrences a match reports. The states of the part
carry `Marker`s, which say for a group whether a path enters it here, is inside it, or may leave it.
A marker has one role when it is made; where states are put together their roles are united.

The markers of a state are kept per action (`Marks`). Until an action is attached to the automaton
its markers are unbound; attaching an action binds them to it.
-/

namespace LongestMatch

/-- How many numbers there are for groups. They are bytes, so counting goes on with 0 after the last
one. -/
def groupNumbers : Nat := 256

/-- The roles of a state for one group. -/
structure Marker where
  group : Nat
  start : Bool
  inner : Bool
  stop : Bool
deriving DecidableEq

namespace Marker

/-- The state where the group begins. -/
def starting (group : Nat) : Marker :=
  ⟨group, true, false, false⟩

/-- A state within the group. -/
def within (group : Nat) : Marker :=
  ⟨group, false, true, false⟩

/-- The state where the group ends, which is still within it. -/
def stopping (group : Nat) : Marker :=
  ⟨group, false, true, true⟩

/-- The roles of both markers. -/
def unite (m other : Marker) : Marker :=
  ⟨m.group, m.start || other.start, m.inner || other.inner, m.stop || other.stop⟩

/-- The marker of the group that comes `offset` numbers later. -/
def shift (offset : Nat) (m : Marker) : Marker :=
  { m with group := (m.group + offset) % groupNumbers }

/-- Adds a marker to a list in ascending order of groups, one entry per group. -/
def insert (m : Marker) : List Marker → List Marker
  | [] => [m]
  | other :: rest =>
    if other.group < m.group then other :: insert m rest
    else if other.group = m.group then other.unite m :: rest
    else m :: other :: rest

/-- Adds all of `ms` to a list in ascending order of groups. -/
def insertAll (list ms : List Marker) : List Marker :=
  ms.foldl (fun list m => insert m list) list

end Marker

/-- The markers that belong to one action, or that are unbound. -/
structure MarksOf where
  owner : Option ActionId
  markers : List Marker
deriving DecidableEq

/-- The markers of a state, one entry per owner. -/
structure Marks where
  entries : List MarksOf := []
deriving DecidableEq

namespace Marks

/-- Whether there is no marker at all. -/
def isEmpty (marks : Marks) : Bool :=
  marks.entries.isEmpty

/-- Adds markers to the entry of an owner. -/
def addTo (owner : Option ActionId) (ms : List Marker) : List MarksOf → List MarksOf
  | [] => [⟨owner, Marker.insertAll [] ms⟩]
  | e :: rest =>
    if e.owner = owner then { e with markers := Marker.insertAll e.markers ms } :: rest
    else e :: addTo owner ms rest

/-- Adds markers for an owner. -/
def add (marks : Marks) (owner : Option ActionId) (ms : List Marker) : Marks :=
  ⟨addTo owner ms marks.entries⟩

/-- The markers of an owner. -/
def markers? (marks : Marks) (owner : Option ActionId) : Option (List Marker) :=
  (marks.entries.find? fun e => e.owner = owner).map MarksOf.markers

/-- Hands the unbound markers over to an action. -/
def bind (marks : Marks) (action : ActionId) : Marks :=
  match marks.markers? none with
  | none => marks
  | some unbound => add ⟨marks.entries.eraseP fun e => e.owner = none⟩ (some action) unbound

/-- Renumbers the groups of the unbound markers so that they come after `offset` others. -/
def shiftUnbound (offset : Nat) (marks : Marks) : Marks :=
  ⟨marks.entries.map fun e =>
    if e.owner = none then { e with markers := e.markers.map (Marker.shift offset) } else e⟩

/-- Adds the bound markers of another state. -/
def addBound (marks other : Marks) : Marks :=
  other.entries.foldl
    (fun marks e => if e.owner = none then marks else marks.add e.owner e.markers) marks

end Marks

end LongestMatch
