import LongestMatch.CharRange

/-!
# Breadth-first search

`Search.ofRows rows` visits the states of a graph that state 0 leads to, the nearer ones first. Of
each state it keeps how many transitions away it is, and the transition that it was first found by.
`Search.wayTo` walks these transitions back; it ends because each of them comes from a state that is
one transition nearer (`Search.Linked`).
-/

namespace LongestMatch

/-- How a search found a state: after how many transitions, and by which one from which state. The
state that the search begins at was not found by any. -/
structure Visit where
  depth : Nat
  edge : Option (Nat × Transition)

/-- The states that a search has visited, and those whose transitions it has still to follow. -/
structure Search where
  visits : Array (Option Visit)
  queue : List Nat

namespace Search

/-- How a state was found, if it was. -/
def visit? (s : Search) (state : Nat) : Option Visit :=
  s.visits.getD state none

/-- How many transitions away a state is. One that was not found is farther than all others. -/
def depth (s : Search) (state : Nat) : Nat :=
  match s.visit? state with
  | some v => v.depth
  | none => s.visits.size

/-- The transition that a state was found by, and the state that it comes from. -/
def edge? (s : Search) (state : Nat) : Option (Nat × Transition) :=
  (s.visit? state).bind Visit.edge

/-- The search that has found nothing but state 0. -/
def start (size : Nat) : Search where
  visits := (Array.replicate size none).setIfInBounds 0 (some ⟨0, none⟩)
  queue := [0]

/-- Follows a transition of a state. The target is visited if it was not before. -/
def follow (source : Nat) (s : Search) (t : Transition) : Search :=
  match s.visits[t.target]? with
  | some none =>
    { visits := s.visits.setIfInBounds t.target (some ⟨s.depth source + 1, some (source, t)⟩)
      queue := s.queue ++ [t.target] }
  | _ => s

/-- How many states are still to be found or to be left. -/
def pending (s : Search) : Nat :=
  s.visits.countP Option.isNone + s.queue.length

section Follow

variable {s : Search} {source : Nat} {t : Transition}

theorem follow_eq_self (h : s.visits[t.target]? ≠ some none) : s.follow source t = s := by
  unfold follow
  split
  · next heq => exact absurd heq h
  · rfl

theorem follow_eq_visit (h : s.visits[t.target]? = some none) : s.follow source t =
    { visits := s.visits.setIfInBounds t.target (some ⟨s.depth source + 1, some (source, t)⟩)
      queue := s.queue ++ [t.target] } := by
  rw [follow, h]

/-- A state that is found is no longer to be found, but it is to be left. -/
theorem pending_follow : (s.follow source t).pending = s.pending := by
  by_cases h : s.visits[t.target]? = some none
  · obtain ⟨hlt, hget⟩ := Array.getElem?_eq_some_iff.1 h
    have hpos : 0 < s.visits.countP Option.isNone :=
      Array.countP_pos_iff.2 ⟨none, Array.mem_of_getElem hget, rfl⟩
    rw [follow_eq_visit h, pending, pending, Array.setIfInBounds, dif_pos hlt, Array.countP_set,
      hget, List.length_append]
    simp only [Option.isNone_none, Option.isNone_some, if_true, List.length_singleton,
      Bool.false_eq_true, if_false]
    omega
  · rw [follow_eq_self h]

theorem pending_foldl_follow (ts : List Transition) :
    (ts.foldl (follow source) s).pending = s.pending := by
  induction ts generalizing s with
  | nil => rfl
  | cons t ts ih => rw [List.foldl_cons, ih, pending_follow]

end Follow

/-- Follows the transitions of all the states in the queue, and of those found by that. -/
def run (rows : Array (List Transition)) (s : Search) : Search :=
  match _h : s.queue with
  | [] => s
  | source :: rest =>
    run rows ((rows.getD source []).foldl (follow source) { s with queue := rest })
termination_by s.pending
decreasing_by
  rw [pending_foldl_follow, pending, pending, _h, List.length_cons]
  exact Nat.lt_succ_self _

/-- The search that has found all that state 0 leads to. -/
def ofRows (rows : Array (List Transition)) : Search :=
  run rows (start rows.size)

/-! ## Found from a nearer state -/

variable {rows : Array (List Transition)} {s : Search} {source : Nat} {t : Transition}

theorem visit?_start {size : Nat} (i : Nat) :
    (start size).visit? i = if i = 0 ∧ 0 < size then some ⟨0, none⟩ else none := by
  rw [visit?, start, Array.getD_eq_getD_getElem?, Array.getElem?_setIfInBounds]
  by_cases hi : i = 0
  · subst hi
    by_cases hsize : 0 < size <;> simp [hsize]
  · have hnone : ¬(i = 0 ∧ 0 < size) := fun h' => hi h'.1
    rw [if_neg (Ne.symm hi), if_neg hnone, Array.getElem?_replicate]
    split
    · rfl
    · rfl

theorem visit?_eq_none (h : s.visits[t.target]? = some none) : s.visit? t.target = none := by
  rw [visit?, Array.getD_eq_getD_getElem?, h, Option.getD_some]

theorem visit?_follow (h : s.visits[t.target]? = some none) (i : Nat) :
    (s.follow source t).visit? i =
      if i = t.target then some ⟨s.depth source + 1, some (source, t)⟩ else s.visit? i := by
  obtain ⟨hlt, -⟩ := Array.getElem?_eq_some_iff.1 h
  rw [follow_eq_visit h, visit?, visit?, Array.getD_eq_getD_getElem?, Array.getD_eq_getD_getElem?]
  split
  · next heq => rw [heq, Array.getElem?_setIfInBounds_self_of_lt hlt, Option.getD_some]
  · next hne => rw [Array.getElem?_setIfInBounds_ne (Ne.symm hne)]

/-- What was visited remains so. -/
theorem visit?_follow_of_eq_some {i : Nat} {v : Visit} (h : s.visit? i = some v) :
    (s.follow source t).visit? i = some v := by
  by_cases hnew : s.visits[t.target]? = some none
  · rw [visit?_follow hnew, if_neg, h]
    rintro rfl
    rw [visit?_eq_none hnew] at h
    cases h
  · rw [follow_eq_self hnew, h]

/-- What is visited was so before, or it is the target. -/
theorem visit?_follow_cases (hnew : s.visits[t.target]? = some none) {i : Nat} {v : Visit}
    (h : (s.follow source t).visit? i = some v) :
    i = t.target ∧ v = ⟨s.depth source + 1, some (source, t)⟩ ∨ s.visit? i = some v := by
  rw [visit?_follow hnew] at h
  split at h
  · next hi => exact .inl ⟨hi, (Option.some.inj h).symm⟩
  · exact .inr h

theorem visit?_foldl_follow_of_eq_some {ts : List Transition} {i : Nat} {v : Visit}
    (h : s.visit? i = some v) : (ts.foldl (follow source) s).visit? i = some v := by
  induction ts generalizing s with
  | nil => exact h
  | cons t ts ih => exact ih (visit?_follow_of_eq_some h)

theorem depth_eq {i : Nat} {v : Visit} (h : s.visit? i = some v) : s.depth i = v.depth := by
  rw [depth, h]

/-- Whatever was visited is the state 0 that the search began at, or it was found by a transition
from a state that is one transition nearer. -/
structure Linked (rows : Array (List Transition)) (s : Search) : Prop where
  /-- The queue holds states that were visited. -/
  queued : ∀ i ∈ s.queue, ∃ v, s.visit? i = some v
  root : ∀ i v, s.visit? i = some v → v.edge = none → i = 0 ∧ v.depth = 0
  edge : ∀ i v source t, s.visit? i = some v → v.edge = some (source, t) →
    t ∈ rows.getD source [] ∧ t.target = i ∧ ∃ u, s.visit? source = some u ∧ v.depth = u.depth + 1

theorem linked_start (hsize : 0 < rows.size) : (start rows.size).Linked rows where
  queued i hi := by
    obtain rfl := List.mem_singleton.1 hi
    exact ⟨_, by rw [visit?_start, if_pos ⟨rfl, hsize⟩]⟩
  root i v hv _ := by
    rw [visit?_start, Option.ite_none_right_eq_some] at hv
    obtain ⟨⟨hi, -⟩, hv⟩ := hv
    obtain rfl := Option.some.inj hv
    exact ⟨hi, rfl⟩
  edge i v source t hv hedge := by
    rw [visit?_start, Option.ite_none_right_eq_some] at hv
    obtain rfl := Option.some.inj hv.2
    cases hedge

theorem Linked.follow (h : s.Linked rows) {u : Visit} (hsource : s.visit? source = some u)
    (ht : t ∈ rows.getD source []) : (s.follow source t).Linked rows := by
  by_cases hnew : s.visits[t.target]? = some none
  · constructor
    · intro i hi
      rw [follow_eq_visit hnew, List.mem_append, List.mem_singleton] at hi
      rcases hi with hi | rfl
      · obtain ⟨v, hv⟩ := h.queued i hi
        exact ⟨v, visit?_follow_of_eq_some hv⟩
      · exact ⟨_, by rw [visit?_follow hnew, if_pos rfl]⟩
    · intro i v hv hedge
      rcases visit?_follow_cases hnew hv with ⟨-, rfl⟩ | hv
      · cases hedge
      · exact h.root i v hv hedge
    · intro i v source' t' hv hedge
      rcases visit?_follow_cases hnew hv with ⟨rfl, rfl⟩ | hv
      · obtain ⟨rfl, rfl⟩ := Prod.mk.inj (Option.some.inj hedge)
        exact ⟨ht, rfl, u, visit?_follow_of_eq_some hsource, by rw [depth_eq hsource]⟩
      · obtain ⟨hmem, htarget, u', hu', hdepth⟩ := h.edge i v source' t' hv hedge
        exact ⟨hmem, htarget, u', visit?_follow_of_eq_some hu', hdepth⟩
  · rwa [follow_eq_self hnew]

theorem Linked.foldl_follow {ts : List Transition} (h : s.Linked rows) {u : Visit}
    (hsource : s.visit? source = some u) (hts : ∀ t ∈ ts, t ∈ rows.getD source []) :
    (ts.foldl (Search.follow source) s).Linked rows := by
  induction ts generalizing s with
  | nil => exact h
  | cons t ts ih =>
    obtain ⟨ht, hts⟩ := List.forall_mem_cons.1 hts
    exact ih (h.follow hsource ht) (visit?_follow_of_eq_some hsource) hts

/-- One turn of the search: a state leaves the queue, and its transitions are followed. -/
theorem Linked.turn {rest : List Nat} (h : s.Linked rows) (hqueue : s.queue = source :: rest) :
    ((rows.getD source []).foldl (Search.follow source) { s with queue := rest }).Linked rows := by
  obtain ⟨u, hu⟩ := h.queued source (by rw [hqueue]; exact List.mem_cons_self)
  have hrest : Linked rows { s with queue := rest } :=
    ⟨fun i hi => h.queued i (by rw [hqueue]; exact List.mem_cons_of_mem _ hi), h.root, h.edge⟩
  exact hrest.foldl_follow hu fun _ ht => ht

theorem Linked.run (h : s.Linked rows) : (s.run rows).Linked rows := by
  fun_induction Search.run rows s with
  | case1 s hqueue => exact h
  | case2 s source rest hqueue ih => exact ih (h.turn hqueue)

theorem linked_ofRows (rows : Array (List Transition)) : (ofRows rows).Linked rows := by
  rcases rows.size.eq_zero_or_pos with hsize | hsize
  · -- without a state 0 there is nothing to visit
    obtain rfl := Array.eq_empty_of_size_eq_zero hsize
    have hnone : ofRows #[] = ⟨#[], []⟩ := by simp [ofRows, start, run]
    rw [hnone]
    constructor
    · intro i hi
      cases hi
    · intro i v hv
      cases hv
    · intro i v source t hv
      cases hv
  · exact (linked_start hsize).run

/-! ## The way back -/

theorem Linked.depth_lt {i : Nat} (h : s.Linked rows) (hedge : s.edge? i = some (source, t)) :
    s.depth source < s.depth i := by
  obtain ⟨v, hv, hedge⟩ := Option.bind_eq_some_iff.1 hedge
  obtain ⟨-, -, u, hu, hdepth⟩ := h.edge i v source t hv hedge
  rw [depth_eq hu, depth_eq hv, hdepth]
  exact Nat.lt_succ_self _

/-- The transitions that lead to a state: the one that it was found by, and before it those that
lead to where this one comes from. -/
def wayTo (s : Search) (h : s.Linked rows) (state : Nat) : List Transition :=
  match _h : s.edge? state with
  | none => []
  | some (source, t) => wayTo s h source ++ [t]
termination_by s.depth state
decreasing_by exact h.depth_lt _h

end Search

end LongestMatch
