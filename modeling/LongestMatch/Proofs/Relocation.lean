import LongestMatch.Proofs.Enclosing
import LongestMatch.Proofs.Interchange
import LongestMatch.Proofs.Pending

/-!
# What is moved stays what it is

Moving an automaton behind a row of states (`absorb`) numbers its states anew. That is all it does
(`Transplanted`): the states that the start or the last state leads to become the new ones, one for
one, with everything they had, their edges under the new numbers and their unbound groups a fixed
number of places later. No number is looked up in vain.

A copy is an automaton moved behind nothing. So it has as many states to show, and no match tells it
from the original (`copy_alike`); `absorb_transplants` puts both together.
-/

namespace LongestMatch

/-! ## Later groups -/

namespace Marks

/-- The unbound groups come `offset` numbers later. -/
def later (offset : Nat) (marks : Marks) : Marks :=
  ⟨marks.entries.map fun e =>
    if e.owner = none then
      { e with markers := e.markers.map fun m => { m with group := m.group + offset } }
    else e⟩

/-- As long as the numbers are bytes, counting does not start over. -/
theorem shiftUnbound_eq_later {marks : Marks} {offset : Nat}
    (h : ∀ e ∈ marks.entries, e.owner = none → ∀ m ∈ e.markers, m.group + offset ≤ 255) :
    marks.shiftUnbound offset = marks.later offset := by
  obtain ⟨entries⟩ := marks
  rw [shiftUnbound, later]
  congr 1
  apply List.map_congr_left
  intro e he
  split
  · next howner =>
    congr 1
    apply List.map_congr_left
    intro m hm
    have hlt : m.group + offset < groupNumbers := Nat.lt_succ_of_le (h e he howner m hm)
    rw [Marker.shift, Nat.mod_eq_of_lt hlt]
  · rfl

end Marks

namespace State

variable {s : State} {m : Marker} {e : MarksOf}

/-- There is one entry of unbound markers. -/
theorem unbound_of_mem (h : s.marks.Sound) (he : e ∈ s.marks.entries) (howner : e.owner = none) :
    s.unbound = e.markers := by
  obtain ⟨owner, ms⟩ := e
  obtain rfl : owner = none := howner
  rw [unbound, (Marks.markers?_eq_some h).2 he]
  rfl

/-- An unbound marker gives some role for its group. -/
theorem exists_has_of_mem_unbound (h : s.marks.Sound) (hm : m ∈ s.unbound) :
    ∃ role, s.marks.Has none m.group role := by
  cases hfound : s.marks.markers? none with
  | none =>
    rw [unbound, hfound] at hm
    cases hm
  | some ms =>
    rw [unbound, hfound] at hm
    have he := (Marks.markers?_eq_some h).1 hfound
    rcases h.proper _ he m hm with hstart | hinner
    · exact ⟨.start, _, he, rfl, m, hm, rfl, hstart⟩
    · exact ⟨.inner, _, he, rfl, m, hm, rfl, hinner⟩

end State

namespace Nfa

variable {nfa other : Nfa} {p q : Nat}

/-! ## The states in use -/

/-- The start or the last state leads to it. -/
def InUse (nfa : Nfa) (p : Nat) : Prop :=
  nfa.Connected nfa.start p ∨ nfa.Connected nfa.last p

/-- These are the states that are moved. -/
theorem moved_iff_inUse (hn : nfa.WellFormed) : nfa.Moved p ↔ nfa.InUse p := by
  have hlink : StateSet.Link nfa.states.size (fun id => (nfa.state id).targets) =
      fun p q => q ∈ (nfa.state p).targets := by
    funext p q
    exact propext (and_iff_left_of_imp fun hq => hn.target_lt hq)
  rw [Moved, reachable, StateSet.contains_reach, hlink]
  simp [hn.start_lt, hn.last_lt, InUse, Connected]

/-- The states of `other` in use make up `states` from the end of `row` on, where `f` tells their
numbers; in front of them is `row`. -/
structure Transplanted (other : Nfa) (f : Nat → Nat) (offset : Nat) (row states : Array State) :
    Prop where
  kept : ∀ p < row.size, states.getD p {} = row.getD p {}
  bijOn : Set.BijOn f {p | other.InUse p} (Set.Ico row.size states.size)
  trans : ∀ p, other.InUse p →
    (states.getD (f p) {}).trans = (other.state p).trans.map (Transition.retarget f)
  eps : ∀ p, other.InUse p → (states.getD (f p) {}).eps = (other.state p).eps.map f
  action : ∀ p, other.InUse p → (states.getD (f p) {}).action = (other.state p).action
  marks : ∀ p, other.InUse p → (states.getD (f p) {}).marks = (other.state p).marks.later offset
  target_new : ∀ p, other.InUse p →
    ∀ q ∈ (states.getD (f p) {}).targets, q ∈ Set.Ico row.size states.size

theorem targets_relocate (s : State) (f : Nat → Nat) (offset : Nat) :
    (s.relocate f offset).targets = s.targets.map f := by
  simp only [State.targets, State.relocate, List.map_append, List.map_map]
  rfl

/-- A bijection between the states, over which each of them is what it was. -/
theorem transplanted_absorb (h : other.Constructed) (row : Array State) {offset : Nat}
    (hids : ∀ p, other.InUse p → ∀ m ∈ (other.state p).unbound, m.group + offset ≤ 255) :
    Transplanted other (other.rename row.size) offset row (absorb row other offset).1 := by
  have hn := h.built.wellFormed
  obtain ⟨hemb, -, hkept⟩ := embedding_of_append hn row offset
    { other with states := (absorb row other offset).1 } rfl
  have hstate : ∀ p, other.InUse p → (absorb row other offset).1.getD (other.rename row.size p) {} =
      (other.state p).relocate (other.rename row.size) offset :=
    fun p hp => hemb.state_eq p ((moved_iff_inUse hn).2 hp)
  have hmaps : ∀ p, other.InUse p →
      other.rename row.size p ∈ Set.Ico row.size (absorb row other offset).1.size := fun p hp =>
    have hp := (moved_iff_inUse hn).2 hp
    ⟨hemb.base_le p hp, hemb.lt_size p hp⟩
  refine ⟨hkept, ⟨hmaps, fun p hp q hq => ?_, fun x hx => ?_⟩, fun p hp => ?_, fun p hp => ?_,
    fun p hp => ?_, fun p hp => ?_, fun p hp q hq => ?_⟩
  · exact hemb.injective p q ((moved_iff_inUse hn).2 hp) ((moved_iff_inUse hn).2 hq)
  · obtain ⟨p, hp, rfl⟩ := hemb.surjective x hx.1 hx.2
    exact ⟨p, (moved_iff_inUse hn).1 hp, rfl⟩
  · rw [hstate p hp]
    rfl
  · rw [hstate p hp]
    rfl
  · rw [hstate p hp]
    rfl
  · rw [hstate p hp]
    apply Marks.shiftUnbound_eq_later
    intro e he howner m hm
    refine hids p hp m ?_
    rwa [State.unbound_of_mem (h.built.sound p) he howner]
  · rw [hstate p hp, targets_relocate] at hq
    obtain ⟨r, hr, rfl⟩ := List.mem_map.1 hq
    have hmoved := hn.moved_target ((moved_iff_inUse hn).2 hp) hr
    exact hmaps r ((moved_iff_inUse hn).1 hmoved)

/-! ## Copies -/

/-- The copy shows as many states, since it shows the same ones under other numbers. -/
theorem stateCount_copy (hn : nfa.WellFormed) : nfa.copy.stateCount = nfa.stateCount := by
  have hemb := embedding_copy hn
  have hmoved : ∀ {p}, p ∈ (nfa.reachable [nfa.start]).toList → nfa.Moved p := by
    intro p hp
    exact (moved_iff_inUse hn).2 (.inl ((connected_iff hn).2 ((mem_reachable hn).1 hp)))
  have hnodup : (nfa.reachable [nfa.start]).toList.Nodup :=
    StateSet.nodup_toList (StateSet.coherent_reach _ _ _)
  have hperm : (nfa.copy.reachable [nfa.copy.start]).toList.Perm
      ((nfa.reachable [nfa.start]).toList.map (nfa.rename 0)) := by
    have hnodup' : (nfa.copy.reachable [nfa.copy.start]).toList.Nodup :=
      StateSet.nodup_toList (StateSet.coherent_reach _ _ _)
    refine (List.perm_ext_iff_of_nodup hnodup'
      (hnodup.map_on fun p hp q hq => rename_inj (hmoved hp) (hmoved hq))).2 fun x => ?_
    rw [mem_reachable (wellFormed_copy hn), List.mem_map]
    constructor
    · rintro ⟨w, t⟩
      obtain ⟨q, tq, rfl⟩ := (hemb.trail_iff (moved_start hn)).1 t
      exact ⟨q, (mem_reachable hn).2 ⟨w, tq⟩, rfl⟩
    · rintro ⟨q, hq, rfl⟩
      obtain ⟨w, tq⟩ := (mem_reachable hn).1 hq
      exact ⟨w, (hemb.trail_iff (moved_start hn)).2 ⟨q, tq, rfl⟩⟩
  have hlength := hperm.length_eq
  rwa [List.length_map, StateSet.length_toList, StateSet.length_toList] at hlength

theorem copy_alike (hn : nfa.WellFormed) : nfa.Alike nfa.copy := by
  have hsees : ∀ B, Badge.Telling B → ∀ w,
      nfa.Sees B nfa.start w ↔ nfa.copy.Sees B nfa.copy.start w := by
    intro B hB w
    rw [sees_copy hn]
    simp only [hB.shift_iff]
  exact ⟨fun a => hsees _ (Badge.telling_acts a),
    fun a group role => hsees _ (Badge.telling_marks a group role)⟩

/-- An automaton is moved behind any row of states as it is, if its groups have numbers there. A
copy shows as many states, has the same groups to come, and, with verdicts by priority, compiles
where the original does, to the same matches with the same spans. -/
theorem absorb_transplants (h : other.Constructed) :
    (∀ (row : Array State) (offset : Nat),
      (∀ p, other.InUse p → ∀ m ∈ (other.state p).unbound, m.group + offset ≤ 255) →
      ∃ f states, absorb row other offset = (states, f other.start, f other.last) ∧
        Transplanted other f offset row states ∧
        ∀ p, other.InUse p → ∀ q ∈ (other.state p).targets, ∃ i,
          (other.reachable [other.start, other.last]).rank? q = some i ∧ f q = row.size + i) ∧
    other.copy.stateCount = other.stateCount ∧ other.copy.nextGroup = other.nextGroup ∧
    ∀ (catalog : Catalog) (failPolicy : FailPolicy) (eofAction : Option ActionId),
      (∀ w, catalog.MergesByPriorityAmong (other.actions w)) →
      ((∃ dfa, other.copy.compile catalog failPolicy eofAction = .ok dfa) ↔
        ∃ dfa, other.compile catalog failPolicy eofAction = .ok dfa) ∧
      ∀ dfa dfa', other.compile catalog failPolicy eofAction = .ok dfa →
        other.copy.compile catalog failPolicy eofAction = .ok dfa' →
        (∀ text, dfa'.find? text = dfa.find? text) ∧
        ∀ src : Source, src.Reliable → ∀ limit out,
          (dfa'.matchLimited limit src out).result = (dfa.matchLimited limit src out).result ∧
          (dfa'.matchLimited limit src out).added = (dfa.matchLimited limit src out).added ∧
          (dfa'.matchLimited limit src out).spans = (dfa.matchLimited limit src out).spans := by
  have hn := h.built.wellFormed
  have halike := copy_alike hn
  refine ⟨fun row offset hids => ?_, stateCount_copy hn, rfl,
    fun catalog failPolicy eofAction hmerge => ⟨(halike.exists_compile hmerge).symm,
      fun dfa dfa' hdfa hdfa' => ⟨fun text => ?_, fun src hsrc limit out => ?_⟩⟩⟩
  · refine ⟨_, _, rfl, transplanted_absorb h row hids, fun p hp q hq => ?_⟩
    obtain ⟨i, hi, -⟩ := rank_of_moved (hn.moved_target ((moved_iff_inUse hn).2 hp) hq)
    exact ⟨i, hi, by rw [rename, hi, Option.getD_some]⟩
  · exact (Dfa.find?_congr (halike.actionFrom_eq hmerge hdfa hdfa') text).symm
  · obtain ⟨hresult, hadded, hspans⟩ := halike.matchLimited_eq h.built (.copy h.built) hmerge hdfa
      hdfa' hsrc limit out
    exact ⟨hresult.symm, hadded.symm, hspans.symm⟩

/-- A pattern with a group, moved behind another one's states; with an action, its copy finds `ab`
and the group there. -/
theorem absorb_transplants_grouped :
    let catalog : Catalog := ⟨fun _ => 0, fun _ _ => .clash, fun a => [a], fun _ => ""⟩
    ∃ nfa, ofPattern {} "(!ab)" = .ok nfa ∧
      (∃ f states, absorb (literal {} "c").states nfa 100 = (states, f nfa.start, f nfa.last) ∧
        Transplanted nfa f 100 (literal {} "c").states states) ∧
      ∃ dfa dfa', (nfa.addAction 7).compile catalog .copy none = .ok dfa ∧
        (nfa.addAction 7).copy.compile catalog .copy none = .ok dfa' ∧
        dfa'.find? "ab" = dfa.find? "ab" ∧
        (dfa'.matchLimited none (Source.ofString "ab") "").spans =
          (dfa.matchLimited none (Source.ofString "ab") "").spans := by
  intro catalog
  obtain ⟨nfa, hnfa⟩ := exists_of_isOk "(!ab)" (by decide +kernel)
  have hbuilt : nfa.Constructed := .ofPattern hnfa
  have hn := hbuilt.built.wellFormed
  have hids : ∀ p, nfa.InUse p → ∀ m ∈ (nfa.state p).unbound, m.group + 100 ≤ 255 := by
    intro p hp m hm
    obtain ⟨role, hhas⟩ := State.exists_has_of_mem_unbound (hbuilt.built.sound p) hm
    have hnumbered := (numbered_ofPattern hnfa).inPlay p ((moved_iff_inUse hn).2 hp)
    have hlt : m.group < nfa.nextGroup := hnumbered.unbound m.group role hhas
    have hle : nfa.nextGroup ≤ 128 := hbuilt.built.nextGroup_le
    omega
  obtain ⟨f, states, habsorb, hmoved, -⟩ :=
    (absorb_transplants hbuilt).1 (literal {} "c").states 100 hids
  have harmed : withAction "(!ab)" 7 = .ok (nfa.addAction 7) := withAction_eq_ok.2 ⟨nfa, hnfa, rfl⟩
  have hone : ∀ w, ∀ a ∈ (nfa.addAction 7).actions w, a = 7 :=
    fun w a ha => eq_of_mem_actions_withAction harmed ha
  have hmerge : ∀ w, catalog.MergesByPriorityAmong ((nfa.addAction 7).actions w) :=
    fun _ _ _ _ _ => rfl
  obtain ⟨-, -, -, hcompile⟩ := absorb_transplants (.addAction 7 hbuilt)
  obtain ⟨hiff, hsame⟩ := hcompile catalog .copy none hmerge
  obtain ⟨dfa, hdfa⟩ : ∃ dfa, (nfa.addAction 7).compile catalog .copy none = .ok dfa := by
    rw [exists_compile_iff]
    rintro ⟨w, hw⟩
    exact hw (clashes_resolution_of_forall_eq (hone w))
  obtain ⟨dfa', hdfa'⟩ := hiff.2 ⟨dfa, hdfa⟩
  obtain ⟨hfind, hmatch⟩ := hsame dfa dfa' hdfa hdfa'
  obtain ⟨-, -, hspans⟩ := hmatch (Source.ofString "ab") (Source.reliable_ofString "ab") none ""
  exact ⟨nfa, hnfa, ⟨f, states, habsorb, hmoved⟩, dfa, dfa', hdfa, hdfa', hfind "ab", hspans⟩

end Nfa

end LongestMatch
