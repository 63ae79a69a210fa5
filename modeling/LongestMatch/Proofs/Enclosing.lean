import LongestMatch.Proofs.Marking
import LongestMatch.Proofs.Structure

/-!
# Marking encloses the paths

What marking a group does to an automaton, down to the entries of each state
(`group_encloses_paths`): a state carries the new group exactly if it lies on a path of transitions
and silent edges from the start to the last state (`Nfa.Connected`), with the role of its place, and
nothing else changes. The new number is that of no other marker, so its marker is put between the
others and united with none of them (`Marker.eq_of_mem_insert`).
-/

namespace LongestMatch

/-! ## Markers of a state -/

namespace Marker

variable {m n : Marker} {ms : List Marker}

theorem mem_insert_self (h : ∀ n ∈ ms, n.group ≠ m.group) : m ∈ insert m ms := by
  induction ms with
  | nil => exact List.mem_singleton_self m
  | cons n ms ih =>
    obtain ⟨hne, hrest⟩ := List.forall_mem_cons.1 h
    rw [insert, if_neg hne]
    split
    · exact List.mem_cons_of_mem n (ih hrest)
    · exact List.mem_cons_self

/-- The marker of a new group is united with no other. -/
theorem eq_of_mem_insert (h : ∀ n ∈ ms, n.group ≠ m.group) (hn : n ∈ insert m ms)
    (hgroup : n.group = m.group) : n = m := by
  induction ms with
  | nil => exact List.mem_singleton.1 hn
  | cons other ms ih =>
    obtain ⟨hne, hrest⟩ := List.forall_mem_cons.1 h
    rw [insert, if_neg hne] at hn
    split at hn
    · rcases List.mem_cons.1 hn with rfl | hn
      · exact absurd hgroup hne
      · exact ih hrest hn
    · rcases List.mem_cons.1 hn with rfl | hn
      · rfl
      · exact absurd hgroup (h n hn)

/-- The markers of other groups stay as they are, in their order. -/
theorem filter_insert (m : Marker) (ms : List Marker) :
    (insert m ms).filter (fun n => n.group ≠ m.group) = ms.filter fun n => n.group ≠ m.group := by
  induction ms with
  | nil => simp [insert]
  | cons other ms ih =>
    rw [insert]
    split
    · rw [List.filter_cons, List.filter_cons, ih]
    · split
      · next heq => simp [unite, heq]
      · simp

end Marker

namespace Marks

variable {marks : Marks} {owner : Option ActionId} {ms : List Marker}

/-- Added markers are put into what the owner had. -/
theorem markers?_add_self (marks : Marks) (owner : Option ActionId) (ms : List Marker) :
    (marks.add owner ms).markers? owner =
      some (Marker.insertAll ((marks.markers? owner).getD []) ms) := by
  obtain ⟨entries⟩ := marks
  rw [add, markers?, markers?]
  induction entries with
  | nil => simp [addTo]
  | cons e entries ih =>
    rw [addTo]
    split
    · next heq => simp [heq]
    · next hne =>
      rw [List.find?_cons_of_neg (by simpa using hne), List.find?_cons_of_neg (by simpa using hne)]
      exact ih

/-- Other owners keep their entries. -/
theorem filter_add (marks : Marks) (owner : Option ActionId) (ms : List Marker) :
    (marks.add owner ms).entries.filter (fun e => e.owner ≠ owner) =
      marks.entries.filter fun e => e.owner ≠ owner := by
  obtain ⟨entries⟩ := marks
  rw [add]
  induction entries with
  | nil => simp [addTo]
  | cons e entries ih =>
    rw [addTo]
    split
    · next heq => simp [heq]
    · rw [List.filter_cons, List.filter_cons, ih]

end Marks

namespace State

/-- The markers of a state that are not bound to an action. -/
def unbound (s : State) : List Marker :=
  (s.marks.markers? none).getD []

theorem unbound_addMarker (m : Marker) (s : State) :
    (s.addMarker m).unbound = Marker.insert m s.unbound := by
  rw [unbound, addMarker, Marks.markers?_add_self]
  rfl

theorem unbound_of_marks_eq_empty {s : State} (h : s.marks = {}) : s.unbound = [] := by
  rw [unbound, h]
  rfl

end State

/-! ## Paths -/

namespace Nfa

variable {nfa whole : Nfa} {p q : Nat} {m : Marker}

/-- Transitions and silent edges lead from one state to another, or the two are one state. -/
def Connected (nfa : Nfa) : Nat → Nat → Prop :=
  Relation.ReflTransGen fun p q => q ∈ (nfa.state p).targets

theorem connected_iff (hn : nfa.WellFormed) :
    nfa.Connected p q ↔ ∃ w, Trail nfa.Edge p w q := by
  simp only [Connected, hn.mem_targets]
  exact exists_trail_iff.symm

theorem onPath_iff (hn : nfa.WellFormed) :
    nfa.OnPath p ↔ nfa.Connected nfa.start p ∧ nfa.Connected p nfa.last := by
  rw [connected_iff hn, connected_iff hn]
  rfl

/-! ## The new group -/

/-- Without a path to the last state there is nothing to mark. -/
theorem markGroup_of_not_connected (hn : nfa.WellFormed) (hcount : nfa.nextGroup < maxGroups)
    (h : ¬nfa.Connected nfa.start nfa.last) :
    nfa.markGroup = .ok { nfa with nextGroup := nfa.nextGroup + 1 } := by
  have hnone : (nfa.reachable [nfa.start]).toList.filter
      (nfa.coReachable (nfa.reachable [nfa.start]).toList nfa.last).contains = [] := by
    apply List.eq_nil_iff_forall_not_mem.2
    intro p hp
    obtain ⟨hstart, hlast⟩ := (onPath_iff hn).1 ((mem_within hn).1 hp)
    exact h (hstart.trans hlast)
  rw [markGroup, if_neg (Nat.not_le.2 hcount)]
  simp only [hnone]
  rfl

theorem roleOf_eq (group : Nat) (hn : nfa.WellFormed) :
    (p = nfa.start → nfa.roleOf group p = ⟨group, true, false, false⟩) ∧
      (p = nfa.last → nfa.roleOf group p = ⟨group, false, true, true⟩) ∧
      (p ≠ nfa.start → p ≠ nfa.last → nfa.roleOf group p = ⟨group, false, true, false⟩) := by
  refine ⟨fun hp => if_pos hp, fun hp => ?_, fun hstart hlast => ?_⟩
  · have hne : p ≠ nfa.start := fun h => hn.start_ne_last (h.symm.trans hp)
    exact (if_neg hne).trans (if_pos hp)
  · exact (if_neg hstart).trans (if_neg hlast)

/-- A state carries the new group exactly if it is on a path. -/
theorem exists_mem_unbound_markGroup (hn : nfa.WellFormed) (h : nfa.markGroup = .ok whole)
    (hfresh : ∀ m ∈ (nfa.state p).unbound, m.group ≠ nfa.nextGroup) :
    (∃ m ∈ (whole.state p).unbound, m.group = nfa.nextGroup) ↔ nfa.OnPath p := by
  rw [state_markGroup hn h]
  split
  · next hp =>
    refine iff_of_true ⟨nfa.roleOf nfa.nextGroup p, ?_, group_roleOf _ _⟩ hp
    rw [State.unbound_addMarker]
    apply Marker.mem_insert_self
    rwa [group_roleOf]
  · next hp =>
    refine iff_of_false (fun hmem => ?_) hp
    obtain ⟨m, hm, hgroup⟩ := hmem
    exact hfresh m hm hgroup

/-- Its marker is that of its place. -/
theorem eq_roleOf_of_mem_unbound_markGroup (hn : nfa.WellFormed) (h : nfa.markGroup = .ok whole)
    (hfresh : ∀ m ∈ (nfa.state p).unbound, m.group ≠ nfa.nextGroup)
    (hm : m ∈ (whole.state p).unbound) (hgroup : m.group = nfa.nextGroup) :
    m = nfa.roleOf nfa.nextGroup p := by
  rw [state_markGroup hn h] at hm
  split at hm
  · rw [State.unbound_addMarker] at hm
    refine Marker.eq_of_mem_insert ?_ hm (by rw [hgroup, group_roleOf])
    rwa [group_roleOf]
  · exact absurd hgroup (hfresh m hm)

/-- The markers of other groups, and those that are bound, stay. -/
theorem others_markGroup (hn : nfa.WellFormed) (h : nfa.markGroup = .ok whole) (p : Nat) :
    ((whole.state p).unbound.filter fun m => m.group ≠ nfa.nextGroup) =
        ((nfa.state p).unbound.filter fun m => m.group ≠ nfa.nextGroup) ∧
      ((whole.state p).marks.entries.filter fun e => e.owner ≠ none) =
        (nfa.state p).marks.entries.filter fun e => e.owner ≠ none := by
  rw [state_markGroup hn h]
  split
  · constructor
    · have hfilter := Marker.filter_insert (nfa.roleOf nfa.nextGroup p) (nfa.state p).unbound
      rw [group_roleOf] at hfilter
      rw [State.unbound_addMarker]
      exact hfilter
    · exact Marks.filter_add _ none _
  · exact ⟨rfl, rfl⟩

/-- Marking a group marks the states on paths from the start to the last state: the start as its
start and as nothing else, the last state as inside and as its stop, those between as inside. All
else stays as it is, up to the number of the next group. If no path leads to the last state, only
that number changes. -/
theorem group_encloses_paths (h : nfa.Constructed) (hcount : nfa.nextGroup < maxGroups)
    (hfresh : ∀ p, ∀ m ∈ (nfa.state p).unbound, m.group ≠ nfa.nextGroup) :
    ∃ whole, nfa.markGroup = .ok whole ∧
      (∀ p, (∃ m ∈ (whole.state p).unbound, m.group = nfa.nextGroup) ↔
        nfa.Connected nfa.start p ∧ nfa.Connected p nfa.last) ∧
      (∀ p, ∀ m ∈ (whole.state p).unbound, m.group = nfa.nextGroup →
        (p = nfa.start → m = ⟨nfa.nextGroup, true, false, false⟩) ∧
        (p = nfa.last → m = ⟨nfa.nextGroup, false, true, true⟩) ∧
        (p ≠ nfa.start → p ≠ nfa.last → m = ⟨nfa.nextGroup, false, true, false⟩)) ∧
      (∀ p, (whole.state p).trans = (nfa.state p).trans ∧ (whole.state p).eps = (nfa.state p).eps ∧
        (whole.state p).action = (nfa.state p).action ∧
        ((whole.state p).unbound.filter fun m => m.group ≠ nfa.nextGroup) = (nfa.state p).unbound ∧
        ((whole.state p).marks.entries.filter fun e => e.owner ≠ none) =
          (nfa.state p).marks.entries.filter fun e => e.owner ≠ none) ∧
      (whole.states.size = nfa.states.size ∧ whole.start = nfa.start ∧ whole.last = nfa.last ∧
        whole.config = nfa.config ∧ whole.nextGroup = nfa.nextGroup + 1) ∧
      (¬nfa.Connected nfa.start nfa.last →
        whole = { nfa with nextGroup := nfa.nextGroup + 1 }) := by
  have hn := h.built.wellFormed
  obtain ⟨whole, hwhole⟩ := exists_markGroup hcount
  have hgraph := sameGraph_markGroup hwhole
  refine ⟨whole, hwhole, fun p => ?_, fun p m hm hgroup => ?_, fun p => ?_, ?_, fun hnot => ?_⟩
  · rw [exists_mem_unbound_markGroup hn hwhole (hfresh p), onPath_iff hn]
  · rw [eq_roleOf_of_mem_unbound_markGroup hn hwhole (hfresh p) hm hgroup]
    exact roleOf_eq nfa.nextGroup hn
  · obtain ⟨hunbound, hbound⟩ := others_markGroup hn hwhole p
    have hkeep : ((nfa.state p).unbound.filter fun m => m.group ≠ nfa.nextGroup) =
        (nfa.state p).unbound := by
      apply List.filter_eq_self.2
      intro m hm
      exact decide_eq_true (hfresh p m hm)
    exact ⟨hgraph.trans_eq p, hgraph.eps_eq p, hgraph.action_eq p, hunbound.trans hkeep, hbound⟩
  · exact ⟨hgraph.size_eq, hgraph.start_eq, hgraph.last_eq, config_markGroup hwhole,
      (nextGroup_markGroup hwhole).1⟩
  · have hempty := markGroup_of_not_connected hn hcount hnot
    rw [hwhole] at hempty
    exact Except.ok.inj hempty

/-- A text in a group, which is put into another group. -/
theorem group_encloses_paths_markedTwice :
    ∃ nfa whole, (literal {} "ab").markGroup = .ok nfa ∧ nfa.markGroup = .ok whole ∧
      whole.nextGroup = 2 ∧ ∃ m ∈ (whole.state whole.start).unbound, m.group = 1 := by
  obtain ⟨nfa, hnfa⟩ : ∃ nfa, (literal {} "ab").markGroup = .ok nfa :=
    exists_markGroup (by rw [nextGroup_literal]; decide)
  have hliteral := wellFormed_literal {} "ab"
  have hbuilt : nfa.Constructed := .markGroup (.literal {} "ab") hnfa
  have hnext : nfa.nextGroup = 1 := by
    rw [(nextGroup_markGroup hnfa).1, nextGroup_literal]
  have hfresh : ∀ p, ∀ m ∈ (nfa.state p).unbound, m.group ≠ nfa.nextGroup := by
    intro p m hm
    obtain ⟨hothers, -⟩ := others_markGroup hliteral hnfa p
    have hempty : ((literal {} "ab").state p).unbound = [] :=
      State.unbound_of_marks_eq_empty (congrArg Prod.snd (blank_literal {} "ab" p))
    rw [hempty, nextGroup_literal] at hothers
    have hzero := List.filter_eq_nil_iff.1 hothers m hm
    simp only [ne_eq, decide_not, Bool.not_eq_true, Bool.not_eq_false', decide_eq_true_eq] at hzero
    rw [hzero, hnext]
    exact Nat.zero_ne_one
  obtain ⟨whole, hwhole, hmarks, -, -, ⟨-, hstart, -, -, hgroups⟩, -⟩ :=
    group_encloses_paths hbuilt (by rw [hnext]; decide) hfresh
  have hpath : nfa.Connected nfa.start nfa.last := by
    rw [connected_iff hbuilt.built.wellFormed]
    have hmem : "ab".toList ∈ nfa.language := by
      rw [(sameGraph_markGroup hnfa).language_eq]
      exact mem_language_literal.2 rfl
    exact ⟨"ab".toList, hmem⟩
  refine ⟨nfa, whole, hnfa, hwhole, by rw [hgroups, hnext], ?_⟩
  rw [hstart, ← hnext]
  exact (hmarks nfa.start).2 ⟨.refl, hpath⟩

end Nfa

end LongestMatch
