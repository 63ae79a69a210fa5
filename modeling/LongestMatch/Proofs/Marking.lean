import LongestMatch.Proofs.Markers
import LongestMatch.Proofs.Operators
import LongestMatch.Proofs.Reach

/-!
# Which states are marked

Marking a group marks the states on paths from the start to the last state (`Nfa.OnPath`), each in
its role, and nothing else (`has_markGroup`). Adding an action binds the markers of the states that
can be reached (`marks_addAction`).
-/

namespace LongestMatch

namespace Nfa

variable {nfa whole : Nfa} {p q : Nat} {a : ActionId} {group : Nat} {role : Role}

/-! ## Changing the states of a list -/

theorem state_modifyAll {ids : List Nat} (hnodup : ids.Nodup) (f : Nat → State → State) (p : Nat) :
    (nfa.modifyAll ids f).state p =
      if p ∈ ids ∧ p < nfa.states.size then f p (nfa.state p) else nfa.state p := by
  unfold modifyAll
  induction ids generalizing nfa with
  | nil => simp
  | cons id ids ih =>
    obtain ⟨hnot, hrest⟩ := List.nodup_cons.1 hnodup
    rw [List.foldl_cons, ih hrest, size_modify, state_modify]
    by_cases hp : p = id
    · subst hp
      simp [hnot]
    · simp [hp]

/-! ## Paths from the start to the last state -/

/-- Some path leads from the start through the state to the last one. -/
def OnPath (nfa : Nfa) (p : Nat) : Prop :=
  (∃ u, Trail nfa.Edge nfa.start u p) ∧ ∃ v, Trail nfa.Edge p v nfa.last

section Path

variable (hn : nfa.WellFormed)

include hn

theorem link_iff : StateSet.Link nfa.states.size (fun id => (nfa.state id).targets) p q ↔
    ∃ l, nfa.Edge p l q := by
  rw [StateSet.Link, hn.mem_targets]
  apply and_iff_left_of_imp
  intro h
  obtain ⟨l, e⟩ := h
  exact hn.edge_lt _ _ _ e

theorem contains_reachable :
    (nfa.reachable [nfa.start]).contains p = true ↔ ∃ u, Trail nfa.Edge nfa.start u p := by
  have hlink : StateSet.Link nfa.states.size (fun id => (nfa.state id).targets) =
      fun a b => ∃ l, nfa.Edge a l b := by
    funext a b
    exact propext (link_iff hn)
  rw [reachable, StateSet.contains_reach, hlink, exists_trail_iff]
  simp [hn.start_lt]

theorem mem_reachable :
    p ∈ (nfa.reachable [nfa.start]).toList ↔ ∃ u, Trail nfa.Edge nfa.start u p := by
  rw [← contains_reachable hn]
  exact StateSet.mem_toList (StateSet.coherent_reach _ _ _)

theorem mem_predecessors {ids : List Nat} :
    p ∈ (nfa.predecessors ids).getD q [] ↔ p ∈ ids ∧ ∃ l, nfa.Edge p l q := by
  have hfold : nfa.predecessors ids = ids.foldl
      (fun table id => enterAll id table ((fun id => (nfa.state id).targets) id))
      (Array.replicate nfa.states.size []) := rfl
  rw [hfold, mem_turnAround, hn.mem_targets]
  apply and_congr_right
  intro _
  apply and_iff_left_of_imp
  intro h
  obtain ⟨l, e⟩ := h
  exact hn.edge_lt _ _ _ e

/-- Among the states that can be reached, those that the search backwards finds are on a path. -/
theorem contains_coReachable (hp : ∃ u, Trail nfa.Edge nfa.start u p) :
    (nfa.coReachable (nfa.reachable [nfa.start]).toList nfa.last).contains p = true ↔
      ∃ v, Trail nfa.Edge p v nfa.last := by
  have hlink : ∀ {a b}, StateSet.Link nfa.states.size (fun id =>
      (nfa.predecessors (nfa.reachable [nfa.start]).toList).getD id []) a b ↔
      (∃ u, Trail nfa.Edge nfa.start u b) ∧ ∃ l, nfa.Edge b l a := by
    intro a b
    rw [StateSet.Link, mem_predecessors hn, mem_reachable hn]
    apply and_iff_left_of_imp
    intro h
    obtain ⟨-, l, e⟩ := h
    exact e.lt_size
  rw [coReachable, StateSet.contains_reach]
  constructor
  · intro h
    obtain ⟨r, hr, -, hback⟩ := h
    obtain rfl := List.mem_singleton.1 hr
    clear hp
    induction hback with
    | refl => exact ⟨[], .nil _⟩
    | tail _ hstep ih =>
      obtain ⟨-, l, e⟩ := hlink.1 hstep
      obtain ⟨v, t⟩ := ih
      exact ⟨_, (trail_of_edge e).trans t⟩
  · intro h
    obtain ⟨v, t⟩ := h
    refine ⟨nfa.last, List.mem_singleton.2 rfl, hn.last_lt, ?_⟩
    -- every state on the way can be reached, since the first one can
    generalize nfa.last = r at t
    induction t with
    | nil => exact .refl
    | silent e _ ih =>
      obtain ⟨u, tu⟩ := hp
      exact .tail (ih ⟨_, tu.trans (trail_edge e)⟩) (hlink.2 ⟨⟨u, tu⟩, _, e⟩)
    | char e _ ih =>
      obtain ⟨u, tu⟩ := hp
      exact .tail (ih ⟨_, tu.trans (trail_single e)⟩) (hlink.2 ⟨⟨u, tu⟩, _, e⟩)

theorem mem_within : p ∈ (nfa.reachable [nfa.start]).toList.filter
    (nfa.coReachable (nfa.reachable [nfa.start]).toList nfa.last).contains ↔ nfa.OnPath p := by
  rw [List.mem_filter, mem_reachable hn]
  exact and_congr_right (contains_coReachable hn)

theorem OnPath.lt_size (h : nfa.OnPath p) : p < nfa.states.size := by
  obtain ⟨⟨u, t⟩, -⟩ := h
  exact hn.trail_lt t hn.start_lt

/-! ## Groups -/

omit hn in
theorem group_roleOf (group p : Nat) : (nfa.roleOf group p).group = group := by
  unfold roleOf
  split
  · rfl
  · split <;> rfl

omit hn in
theorem start_of_roleOf (h : (nfa.roleOf group p).has .start = true) : p = nfa.start := by
  unfold roleOf at h
  split at h
  · assumption
  · split at h <;> cases h

omit hn in
theorem inner_roleOf : (nfa.roleOf group p).has .inner = true ↔ p ≠ nfa.start := by
  unfold roleOf
  split
  · next hp => exact iff_of_false (fun h => by cases h) fun hne => hne hp
  · next hp => split <;> exact iff_of_true rfl hp

omit hn in
theorem last_of_roleOf (h : (nfa.roleOf group p).has .stop = true) : p = nfa.last := by
  unfold roleOf at h
  split at h
  · cases h
  · split at h
    · assumption
    · cases h

open Classical in
/-- The states on paths get a marker, the others stay as they are. -/
theorem state_markGroup (h : nfa.markGroup = .ok whole) (p : Nat) : whole.state p =
    if nfa.OnPath p then (nfa.state p).addMarker (nfa.roleOf nfa.nextGroup p)
    else nfa.state p := by
  unfold markGroup at h
  split at h
  · cases h
  · cases h
    have hnodup : ((nfa.reachable [nfa.start]).toList.filter
        (nfa.coReachable (nfa.reachable [nfa.start]).toList nfa.last).contains).Nodup :=
      (StateSet.nodup_toList (StateSet.coherent_reach _ _ _)).filter _
    refine (state_modifyAll hnodup _ p).trans ?_
    by_cases hp : nfa.OnPath p
    · rw [if_pos ⟨(mem_within hn).2 hp, hp.lt_size hn⟩, if_pos hp]
    · rw [if_neg fun h => hp ((mem_within hn).1 h.1), if_neg hp]

/-- A state has a role for the new group if it is on a path and the role is its own, and for the
others what it had. -/
theorem has_markGroup (h : nfa.markGroup = .ok whole) :
    (whole.state p).marks.Has none group role ↔
      (group = nfa.nextGroup ∧ nfa.OnPath p ∧ (nfa.roleOf nfa.nextGroup p).has role = true) ∨
        (nfa.state p).marks.Has none group role := by
  rw [state_markGroup hn h]
  split
  · next hp =>
    rw [State.addMarker, Marks.has_add, and_iff_right rfl, Marker.says_cons,
      or_iff_left Marker.not_says_nil, group_roleOf, and_iff_right hp, eq_comm]
  · next hp => exact (or_iff_right fun h => hp h.2.1).symm

theorem has_markGroup_some (h : nfa.markGroup = .ok whole) :
    (whole.state p).marks.Has (some a) group role ↔
      (nfa.state p).marks.Has (some a) group role := by
  rw [state_markGroup hn h]
  split
  · rw [State.addMarker, Marks.has_add]
    exact or_iff_right fun h => by cases h.1
  · rfl

omit hn in
theorem proper_roleOf (group p : Nat) : (nfa.roleOf group p).Proper := by
  unfold roleOf
  split
  · exact Marker.proper_starting _
  · split
    · exact Marker.proper_stopping _
    · exact Marker.proper_within _

theorem sound_markGroup (h : nfa.markGroup = .ok whole) (hp : (nfa.state p).marks.Sound) :
    (whole.state p).marks.Sound := by
  rw [state_markGroup hn h]
  split
  · exact hp.add none (List.forall_mem_singleton.2 (proper_roleOf _ p))
  · exact hp

/-! ## Actions -/

/-- The markers of a state that can be reached go over to the action. -/
theorem marks_addAction (a : ActionId) (hp : ∃ u, Trail nfa.Edge nfa.start u p) :
    ((nfa.addAction a).state p).marks = (nfa.state p).marks.bind a := by
  have hsize : (nfa.arm a).states.size = nfa.states.size := size_modify _ _
  have hmarks : ((nfa.arm a).state p).marks = (nfa.state p).marks := by
    rw [arm, state_modify]
    split <;> rfl
  have hlt : p < nfa.states.size := by
    obtain ⟨u, t⟩ := hp
    exact hn.trail_lt t hn.start_lt
  have hmem : p ∈ ((nfa.arm a).reachable [(nfa.arm a).start]).toList := by
    rw [mem_reachable (wellFormed_arm hn a)]
    obtain ⟨u, t⟩ := hp
    exact ⟨u, (trail_congr (edge_arm a)).2 t⟩
  have hnodup : ((nfa.arm a).reachable [(nfa.arm a).start]).toList.Nodup :=
    StateSet.nodup_toList (StateSet.coherent_reach _ _ _)
  have hstate : (nfa.addAction a).state p = ((nfa.arm a).state p).bind a :=
    (state_modifyAll hnodup (fun _ => State.bind a) p).trans (if_pos ⟨hmem, hsize ▸ hlt⟩)
  rw [hstate, State.bind, hmarks]

end Path

end Nfa

end LongestMatch
