import LongestMatch.Proofs.InPlay

/-!
# What has been done to the markers of a state

Operators do three things to the markers of a state: they add some of a new group, they move the
unbound ones behind the groups of another automaton, and they hand those over to an action. A list of
such events, the latest first, says which groups a state has (`MarkEvent.Unbound`, `MarkEvent.Bound`).
The numbers are plain sums: this is how they are meant, though they are kept in bytes.

* `MarkEvent.unbound_append_bind`, `MarkEvent.bound_append_bind` — what an action took over, and what
  others had before, is settled; nothing that comes later has a part in it.
* `Marks.Follows.add`, `Marks.Follows.shift`, `Marks.Follows.bind` — the markers of a state follow its
  events. A number wraps round only if there are too many groups.
-/

namespace LongestMatch

/-- Something that is done to the markers of a state. -/
inductive MarkEvent where
  /-- Markers are added. -/
  | mark (markers : List Marker)
  /-- The unbound groups come after others. -/
  | shift (offset : Nat)
  /-- The action takes over the unbound groups. -/
  | bind (action : ActionId)

namespace MarkEvent

variable {before after : List MarkEvent} {a b : ActionId} {group : Nat} {role : Role}

/-- After the events the state has the role for a group without an action. -/
def Unbound : List MarkEvent → Nat → Role → Prop
  | [], _, _ => False
  | mark markers :: events, group, role => Marker.Says markers group role ∨ Unbound events group role
  | shift offset :: events, group, role =>
    ∃ earlier, Unbound events earlier role ∧ group = earlier + offset
  | bind _ :: _, _, _ => False

/-- After the events the state has the role for a group of the action. -/
def Bound (a : ActionId) : List MarkEvent → Nat → Role → Prop
  | [], _, _ => False
  | mark _ :: events, group, role | shift _ :: events, group, role => Bound a events group role
  | bind action :: events, group, role =>
    (action = a ∧ Unbound events group role) ∨ Bound a events group role

/-- The groups without an action are those of the events since an action was added. -/
theorem unbound_append_bind :
    Unbound (after ++ bind a :: before) group role ↔ Unbound after group role := by
  induction after generalizing group with
  | nil => rfl
  | cons event after ih =>
    rw [List.cons_append]
    cases event with
    | mark markers => exact or_congr_right ih
    | shift offset => exact exists_congr fun earlier => and_congr_left' ih
    | bind action => rfl

/-- An action has the groups without one that there were when it was added, what it had already, and
what it gets from the events since then. -/
theorem bound_append_bind : Bound b (after ++ bind a :: before) group role ↔
    ((a = b ∧ Unbound before group role) ∨ Bound b before group role) ∨ Bound b after group role := by
  -- a later action finds only the groups that are new since then
  induction after with
  | nil => exact (or_iff_left id).symm
  | cons event after ih =>
    rw [List.cons_append]
    cases event with
    | mark markers => exact ih
    | shift offset => exact ih
    | bind action => exact (or_congr (and_congr_right fun _ => unbound_append_bind) ih).trans or_left_comm

end MarkEvent

namespace Marks

open MarkEvent

variable {marks : Marks} {events : List MarkEvent}

/-- The markers of a state are what the events make of them. -/
structure Follows (events : List MarkEvent) (marks : Marks) : Prop where
  unbound : ∀ group role, marks.Has none group role ↔ Unbound events group role
  bound : ∀ a group role, marks.Has (some a) group role ↔ Bound a events group role

theorem follows_empty : Follows [] {} :=
  ⟨fun _ _ => iff_of_false not_has_empty id, fun _ _ _ => iff_of_false not_has_empty id⟩

namespace Follows

variable (h : marks.Follows events)

include h

theorem add (markers : List Marker) : (marks.add none markers).Follows (.mark markers :: events) := by
  refine ⟨fun group role => ?_, fun a group role => ?_⟩
  · rw [has_add, and_iff_right rfl, h.unbound]
    rfl
  · rw [has_add, or_iff_right fun h => Option.some_ne_none a h.1.symm, h.bound]
    rfl

theorem shift {offset : Nat}
    (hlt : ∀ group role, marks.Has none group role → group + offset < groupNumbers) :
    (marks.shiftUnbound offset).Follows (.shift offset :: events) := by
  refine ⟨fun group role => ?_, fun a group role => has_shiftUnbound_some.trans (h.bound a group role)⟩
  rw [has_shiftUnbound_none]
  refine exists_congr fun earlier => ?_
  rw [← h.unbound]
  refine and_congr_right fun hhas => ?_
  rw [Nat.mod_eq_of_lt (hlt earlier role hhas)]

theorem bind (hsound : marks.Sound) (a : ActionId) :
    (marks.bind a).Follows (.bind a :: events) := by
  refine ⟨fun group role => iff_of_false (not_has_none_bind hsound) id, fun b group role => ?_⟩
  rw [has_bind hsound, h.unbound, h.bound]
  rfl

/-- An action that is added changes nothing where all groups have one. -/
theorem bind_of_bound (hbound : ∀ group role, ¬marks.Has none group role) (a : ActionId) :
    marks.Follows (.bind a :: events) := by
  refine ⟨fun group role => iff_of_false (hbound group role) id, fun b group role => ?_⟩
  rw [h.bound]
  exact (or_iff_right fun hnew => hbound group role ((h.unbound group role).2 hnew.2)).symm

end Follows

/-- Markers that no action has can all have been added at once. -/
theorem Sound.follows (h : marks.Sound) (hunbound : ∀ a group role, ¬marks.Has (some a) group role) :
    marks.Follows [.mark ((marks.markers? none).getD [])] := by
  refine ⟨fun group role => ?_, fun a group role => iff_of_false (hunbound a group role) id⟩
  exact (says_markers? h).symm.trans (or_iff_left id).symm

end Marks

end LongestMatch
