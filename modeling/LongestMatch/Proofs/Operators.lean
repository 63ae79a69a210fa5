import LongestMatch.Proofs.Branches

/-!
# Operators on one automaton

For each operator: the rules that automata keep are kept, and the texts and badges of the result are
those of the operand, put together in the way that the operator stands for. Marking a group leaves
the graph alone (`SameGraph`), and so does adding an action, apart from the action of the last
state.
-/

namespace LongestMatch

open scoped Computability

namespace Nfa

variable {nfa : Nfa} {p q : Nat} {l : Option Char} {w : List Char} {a : ActionId}
  {B : Badge → Prop}

/-! ## Repetition -/

/-- With the way back, a text is read in rounds and what is left of the last one. -/
theorem trail_rounds (r : Nat) :
    Trail (fun p l q => nfa.Edge p l q ∨ p = nfa.last ∧ l = none ∧ q = nfa.start) nfa.start w r ↔
      w ∈ nfa.language∗ * between nfa.Edge nfa.start r := by
  have hedge : ∀ p l q, nfa.Edge p l q ∨ p = nfa.last ∧ l = none ∧ q = nfa.start ↔
      nfa.Edge p l q ∨ p = nfa.last ∧ l = none ∧ q = nfa.start := fun p l q => Iff.rfl
  have hcycle := between_cycle hedge nfa.start r
  have hrounds : between nfa.Edge nfa.start r +
      nfa.language * nfa.language∗ * between nfa.Edge nfa.start r =
        nfa.language∗ * between nfa.Edge nfa.start r :=
    calc between nfa.Edge nfa.start r + nfa.language * nfa.language∗ * between nfa.Edge nfa.start r
        = (1 + nfa.language * nfa.language∗) * between nfa.Edge nfa.start r := by
          rw [add_mul, one_mul]
      _ = nfa.language∗ * between nfa.Edge nfa.start r := by
          rw [Language.one_add_self_mul_kstar_eq_kstar]
  rw [← mem_between, hcycle, ← mul_assoc]
  exact Set.ext_iff.1 hrounds w

section Loop

variable (hn : nfa.WellFormed) (skip : Bool)

theorem size_loop (nfa : Nfa) (skip : Bool) :
    (nfa.loop skip).states.size = nfa.states.size + 2 := by
  simp [loop]

include hn

theorem state_loop (p : Nat) : (nfa.loop skip).state p =
    if p = nfa.states.size then
      { eps := if skip then [nfa.start, nfa.states.size + 1] else [nfa.start] }
    else if p = nfa.last then (nfa.state p).addEps [nfa.start, nfa.states.size + 1]
    else nfa.state p := by
  have hlast := hn.last_lt
  generalize hentry : ({ eps := if skip = true then [nfa.start, nfa.states.size + 1]
    else [nfa.start] } : State) = entry
  have hone : ({ nfa with states := nfa.states.push entry } : Nfa).states =
    nfa.states.push entry := rfl
  have htwo : ({ nfa with states := (nfa.states.push entry).push {} } : Nfa).states =
    ({ nfa with states := nfa.states.push entry } : Nfa).states.push {} := rfl
  have hgrown : ∀ p, ({ nfa with states := (nfa.states.push entry).push {} } : Nfa).state p =
      if p = nfa.states.size then entry else nfa.state p := by
    intro p
    rw [state_push_empty htwo, state_push hone]
  rw [loop]
  simp only [hentry]
  apply (state_modify _ _ _).trans
  rw [hgrown]
  simp only [Array.size_push]
  by_cases hp : p = nfa.states.size
  · have hpl : p ≠ nfa.last := by omega
    rw [if_neg fun h => hpl h.1, if_pos hp, if_pos hp]
  · by_cases hpl : p = nfa.last
    · rw [if_pos ⟨hpl, by omega⟩, if_neg hp, if_neg hp, if_pos hpl]
    · rw [if_neg fun h => hpl h.1, if_neg hp, if_neg hp, if_neg hpl]

/-- The edges of the loop: those of the operand, the ways back and out, and the way in. -/
theorem edge_loop : (nfa.loop skip).Edge p l q ↔
    ((nfa.Edge p l q ∨ p = nfa.last ∧ l = none ∧ q = nfa.start) ∨
      p = nfa.last ∧ l = none ∧ q = nfa.states.size + 1) ∨
    p = nfa.states.size ∧ l = none ∧ (q = nfa.start ∨ skip = true ∧ q = nfa.states.size + 1) := by
  have hlast := hn.last_lt
  rw [Edge, state_loop hn]
  by_cases hp : p = nfa.states.size
  · subst hp
    have hold : ¬nfa.Edge nfa.states.size l q := fun e => absurd e.lt_size (Nat.lt_irrefl _)
    have hpl : nfa.states.size ≠ nfa.last := by omega
    rw [if_pos rfl, edge_of_eps]
    cases skip <;> simp [hold, hpl]
  · rw [if_neg hp]
    by_cases hpl : p = nfa.last
    · rw [if_pos hpl, edge_addEps]
      simp [hpl, Edge]
      grind
    · rw [if_neg hpl]
      simp [hp, hpl, Edge]

/-- Once in, the way in is not used again, and the way out leads to the new last state only. -/
theorem trail_loop_start (r : Nat) : Trail (nfa.loop skip).Edge nfa.start w r ↔
    w ∈ nfa.language∗ * between nfa.Edge nfa.start r ∨
      r = nfa.states.size + 1 ∧ w ∈ nfa.language∗ * nfa.language := by
  have hstart := hn.start_lt
  have hlast := hn.last_lt
  have hin : Trail (nfa.loop skip).Edge nfa.start w r ↔ Trail (fun p l q =>
      (nfa.Edge p l q ∨ p = nfa.last ∧ l = none ∧ q = nfa.start) ∨
        p = nfa.last ∧ l = none ∧ q = nfa.states.size + 1) nfa.start w r := by
    refine ⟨fun t => ?_, fun t => t.mono fun p l q e => (edge_loop hn skip).2 (.inl e)⟩
    refine t.map_edges (P := fun p => p ≠ nfa.states.size) (fun p l q hp e => ?_) (by omega)
    rcases (edge_loop hn skip).1 e with e | ⟨heq, -⟩
    · refine ⟨e, ?_⟩
      rcases e with (e | ⟨-, -, rfl⟩) | ⟨-, -, rfl⟩
      · exact Nat.ne_of_lt (hn.edge_lt p l q e)
      · omega
      · omega
    · exact absurd heq hp
  rw [hin, trail_link_terminal (fun p l q => Iff.rfl) (by omega), trail_rounds, trail_rounds]
  · rfl
  · rintro l q (e | ⟨heq, -⟩)
    · have := e.lt_size
      omega
    · omega

theorem trail_loop_entry {r : Nat} (hr : r ≠ nfa.states.size) :
    Trail (nfa.loop skip).Edge nfa.states.size w r ↔
      Trail (nfa.loop skip).Edge nfa.start w r ∨
        skip = true ∧ w = [] ∧ r = nfa.states.size + 1 := by
  have hlast := hn.last_lt
  have hentry : ∀ l q, (nfa.loop skip).Edge nfa.states.size l q ↔
      l = none ∧ (q = nfa.start ∨ skip = true ∧ q = nfa.states.size + 1) := by
    intro l q
    rw [Edge, state_loop hn, if_pos rfl, edge_of_eps]
    cases skip <;> simp
  have hexit : ∀ l q, ¬(nfa.loop skip).Edge (nfa.states.size + 1) l q := by
    intro l q e
    rcases (edge_loop hn skip).1 e with ((e | ⟨heq, -⟩) | ⟨heq, -⟩) | ⟨heq, -⟩
    · have := e.lt_size
      omega
    · omega
    · omega
    · omega
  rw [trail_of_silent hentry]
  refine ⟨?_, ?_⟩
  · intro h
    rcases h with ⟨-, heq⟩ | ⟨q, rfl | ⟨hskip, rfl⟩, t⟩
    · exact absurd heq hr
    · exact .inl t
    · exact .inr ⟨hskip, (trail_of_no_edge hexit).1 t⟩
  · intro h
    rcases h with t | ⟨hskip, rfl, rfl⟩
    · exact .inr ⟨nfa.start, .inl rfl, t⟩
    · exact .inr ⟨nfa.states.size + 1, .inr ⟨hskip, rfl⟩, .nil _⟩

theorem mem_language_loop : w ∈ (nfa.loop skip).language ↔
    w ∈ nfa.language∗ * nfa.language ∨ skip = true ∧ w = [] := by
  have hout : w ∉ nfa.language∗ * between nfa.Edge nfa.start (nfa.states.size + 1) := by
    intro h
    obtain ⟨u, -, v, hv, rfl⟩ := h
    have := hn.trail_lt hv hn.start_lt
    omega
  show Trail (nfa.loop skip).Edge nfa.states.size w (nfa.states.size + 1) ↔ _
  rw [trail_loop_entry hn skip (by omega), trail_loop_start hn skip]
  simp [hout]

theorem badge_loop (q : Nat) : ((nfa.loop skip).state q).badge =
    if q = nfa.states.size then Badge.blank else (nfa.state q).badge := by
  rw [state_loop hn]
  split
  · rfl
  · split <;> rfl

theorem badge_loop_last : ((nfa.loop skip).state (nfa.loop skip).last).badge = Badge.blank := by
  have hlast : (nfa.loop skip).last = nfa.states.size + 1 := rfl
  rw [hlast, badge_loop hn, if_neg (Nat.succ_ne_self _), state_of_size_le (Nat.le_succ _)]
  rfl

/-- The badges that a text leads to are those that its last round leads to. -/
theorem sees_loop (hblank : ¬B Badge.blank) :
    (nfa.loop skip).Sees B (nfa.loop skip).start w ↔
      ∃ u v, w = u ++ v ∧ u ∈ nfa.language∗ ∧ nfa.Sees B nfa.start v := by
  have hlast := hn.last_lt
  show (∃ q, Trail (nfa.loop skip).Edge nfa.states.size w q ∧ _) ↔ _
  simp only [badge_loop hn]
  refine ⟨?_, ?_⟩
  · intro h
    obtain ⟨q, t, hb⟩ := h
    split at hb
    · exact absurd hb hblank
    · next hq =>
      have hlt : q < nfa.states.size := by
        by_contra hge
        rw [state_of_size_le (by omega)] at hb
        exact hblank hb
      rw [trail_loop_entry hn skip hq, trail_loop_start hn skip] at t
      rcases t with (⟨u, hu, v, hv, rfl⟩ | ⟨heq, -⟩) | ⟨-, -, heq⟩
      · exact ⟨u, v, rfl, hu, q, hv, hb⟩
      · omega
      · omega
  · intro h
    obtain ⟨u, v, rfl, hu, q, hv, hb⟩ := h
    have hq : q ≠ nfa.states.size := Nat.ne_of_lt (hn.trail_lt hv hn.start_lt)
    refine ⟨q, ?_, by rwa [if_neg hq]⟩
    rw [trail_loop_entry hn skip hq, trail_loop_start hn skip]
    exact .inl (.inl ⟨u, hu, v, hv, rfl⟩)

theorem mem_actions_loop : a ∈ (nfa.loop skip).actions w ↔
    ∃ u v, w = u ++ v ∧ u ∈ nfa.language∗ ∧ a ∈ nfa.actions v :=
  sees_loop hn skip (Badge.not_acts_blank a)

theorem wellFormed_loop : (nfa.loop skip).WellFormed := by
  have hstart := hn.start_lt
  have hlast := hn.last_lt
  have hsize := nfa.size_loop skip
  have hs : (nfa.loop skip).start = nfa.states.size := rfl
  have ht : (nfa.loop skip).last = nfa.states.size + 1 := rfl
  refine ⟨by omega, by omega, by omega, fun p l q e => ?_, fun p l e => ?_, fun l q e => ?_, ?_,
    fun p => ?_⟩
  · rcases (edge_loop hn skip).1 e with ((e | h) | h) | h
    · have := hn.edge_lt p l q e
      omega
    · omega
    · omega
    · omega
  · rw [hs] at e
    rcases (edge_loop hn skip).1 e with ((e | h) | h) | h
    · have := hn.edge_lt p l _ e
      omega
    · omega
    · omega
    · omega
  · rw [ht] at e
    rcases (edge_loop hn skip).1 e with ((e | h) | h) | h
    · have := e.lt_size
      omega
    · omega
    · omega
    · omega
  · rw [hs, state_loop hn, if_pos rfl]
  · rw [state_loop hn]
    split
    · exact Transition.sorted_nil
    · split
      · exact hn.sorted p
      · exact hn.sorted p

end Loop

/-! ## Options -/

section Optional

variable (hn : nfa.WellFormed)

include hn

theorem mem_language_optional : w ∈ nfa.optional.language ↔ w ∈ nfa.language ∨ w = [] := by
  show Trail (nfa.link nfa.start nfa.last).Edge nfa.start w nfa.last ↔ _
  rw [trail_link (fun p l q => edge_link hn.start_lt) hn.no_trail_back]
  refine or_congr Iff.rfl ⟨?_, ?_⟩
  · intro h
    obtain ⟨u, v, rfl, hu, hv⟩ := h
    rw [(hn.trail_start.1 hu).1, (hn.trail_last.1 hv).1]
    rfl
  · intro heq
    obtain rfl := heq
    exact ⟨[], [], rfl, .nil _, .nil _⟩

/-- The empty text leads to the last state, too. -/
theorem sees_optional : nfa.optional.Sees B nfa.optional.start w ↔
    nfa.Sees B nfa.start w ∨ w = [] ∧ B (nfa.state nfa.last).badge := by
  show (nfa.link nfa.start nfa.last).Sees B nfa.start w ↔ _
  rw [sees_link hn.start_lt hn.no_trail_back]
  refine or_congr Iff.rfl ⟨?_, ?_⟩
  · intro h
    obtain ⟨u, v, rfl, hu, q, hv, hb⟩ := h
    obtain ⟨rfl, rfl⟩ := hn.trail_last.1 hv
    exact ⟨by rw [(hn.trail_start.1 hu).1]; rfl, hb⟩
  · intro h
    obtain ⟨rfl, hb⟩ := h
    exact ⟨[], [], rfl, .nil _, nfa.last, .nil _, hb⟩

theorem mem_actions_optional : a ∈ nfa.optional.actions w ↔
    a ∈ nfa.actions w ∨ w = [] ∧ (nfa.state nfa.last).action = some a :=
  sees_optional (B := Badge.Acts a) hn

theorem wellFormed_optional : nfa.optional.WellFormed := by
  have hsize : nfa.optional.states.size = nfa.states.size := size_modify _ _
  have hedge : ∀ {p l q}, nfa.optional.Edge p l q →
      nfa.Edge p l q ∨ p = nfa.start ∧ l = none ∧ q = nfa.last := (edge_link hn.start_lt).1
  refine ⟨hsize ▸ hn.start_lt, hsize ▸ hn.last_lt, hn.start_ne_last, fun p l q e => ?_,
    fun p l e => ?_, fun l q e => ?_, ?_, fun p => ?_⟩
  · rw [hsize]
    rcases hedge e with e | ⟨-, -, rfl⟩
    · exact hn.edge_lt p l q e
    · exact hn.last_lt
  · rcases hedge e with e | ⟨-, -, heq⟩
    · exact hn.no_edge_start p l e
    · exact hn.start_ne_last heq
  · rcases hedge e with e | ⟨heq, -⟩
    · exact hn.no_edge_last l q e
    · exact hn.start_ne_last heq.symm
  · exact (action_link _ _ _).trans hn.action_start
  · exact (trans_link nfa.start nfa.last p).symm ▸ hn.sorted p

end Optional

/-! ## Changes that leave the graph alone -/

/-- Two automata that differ in their markers at most. -/
structure SameGraph (nfa whole : Nfa) : Prop where
  size_eq : whole.states.size = nfa.states.size
  start_eq : whole.start = nfa.start
  last_eq : whole.last = nfa.last
  trans_eq : ∀ p, (whole.state p).trans = (nfa.state p).trans
  eps_eq : ∀ p, (whole.state p).eps = (nfa.state p).eps
  action_eq : ∀ p, (whole.state p).action = (nfa.state p).action

theorem SameGraph.edge_iff {whole : Nfa} (h : nfa.SameGraph whole) (p : Nat) (l : Option Char)
    (q : Nat) : whole.Edge p l q ↔ nfa.Edge p l q := by
  cases l with
  | none => rw [Edge, State.Edge, h.eps_eq, Edge, State.Edge]
  | some c => rw [Edge, State.Edge, h.trans_eq, Edge, State.Edge]

theorem SameGraph.trail_iff {whole : Nfa} (h : nfa.SameGraph whole) :
    Trail whole.Edge p w q ↔ Trail nfa.Edge p w q :=
  trail_congr h.edge_iff

theorem SameGraph.language_eq {whole : Nfa} (h : nfa.SameGraph whole) :
    whole.language = nfa.language := by
  ext w
  rw [mem_language, mem_language, h.start_eq, h.last_eq, h.trail_iff]

theorem SameGraph.actions_eq {whole : Nfa} (h : nfa.SameGraph whole) (w : List Char) :
    whole.actions w = nfa.actions w := by
  ext a
  simp only [mem_actions, h.start_eq, h.trail_iff, h.action_eq]

theorem SameGraph.wellFormed {whole : Nfa} (h : nfa.SameGraph whole) (hn : nfa.WellFormed) :
    whole.WellFormed := by
  obtain ⟨hstart, hlast, hne, hlt, hinto, hfrom, haction, hsorted⟩ := hn
  refine ⟨?_, ?_, ?_, fun p l q e => ?_, fun p l e => ?_, fun l q e => ?_, ?_, fun p => ?_⟩
  · rwa [h.start_eq, h.size_eq]
  · rwa [h.last_eq, h.size_eq]
  · rwa [h.start_eq, h.last_eq]
  · rw [h.size_eq]
    exact hlt p l q ((h.edge_iff p l q).1 e)
  · rw [h.start_eq, h.edge_iff] at e
    exact hinto p l e
  · rw [h.last_eq, h.edge_iff] at e
    exact hfrom l q e
  · rw [h.start_eq, h.action_eq, haction]
  · rw [h.trans_eq]
    exact hsorted p

theorem SameGraph.withGroups {whole : Nfa} (h : nfa.SameGraph whole) (count : Nat) :
    nfa.SameGraph { whole with nextGroup := count } :=
  ⟨h.size_eq, h.start_eq, h.last_eq, h.trans_eq, h.eps_eq, h.action_eq⟩

theorem sameGraph_modifyAll (nfa : Nfa) (ids : List Nat) {f : Nat → State → State}
    (hf : ∀ id s, (f id s).trans = s.trans ∧ (f id s).eps = s.eps ∧ (f id s).action = s.action) :
    nfa.SameGraph (nfa.modifyAll ids f) := by
  unfold modifyAll
  induction ids generalizing nfa with
  | nil => exact ⟨rfl, rfl, rfl, fun _ => rfl, fun _ => rfl, fun _ => rfl⟩
  | cons id ids ih =>
    have hone : ∀ p, ((nfa.modify id (f id)).state p).trans = (nfa.state p).trans ∧
        ((nfa.modify id (f id)).state p).eps = (nfa.state p).eps ∧
        ((nfa.modify id (f id)).state p).action = (nfa.state p).action := by
      intro p
      rw [state_modify]
      split
      · exact hf id _
      · exact ⟨rfl, rfl, rfl⟩
    have hrest := ih (nfa.modify id (f id))
    exact ⟨hrest.size_eq.trans (size_modify _ _), hrest.start_eq, hrest.last_eq,
      fun p => (hrest.trans_eq p).trans (hone p).1, fun p => (hrest.eps_eq p).trans (hone p).2.1,
      fun p => (hrest.action_eq p).trans (hone p).2.2⟩

@[simp] theorem config_modifyAll (nfa : Nfa) (ids : List Nat) (f : Nat → State → State) :
    (nfa.modifyAll ids f).config = nfa.config := by
  unfold modifyAll
  induction ids generalizing nfa with
  | nil => rfl
  | cons id ids ih => exact ih (nfa.modify id (f id))

theorem sameGraph_markGroup {whole : Nfa} (h : nfa.markGroup = .ok whole) :
    nfa.SameGraph whole := by
  unfold markGroup at h
  split at h
  · cases h
  · cases h
    exact (sameGraph_modifyAll nfa _ (f := fun id => State.addMarker (nfa.roleOf nfa.nextGroup id))
      fun _ _ => ⟨rfl, rfl, rfl⟩).withGroups _

/-! ## Actions -/

/-- The automaton whose last state has an action. -/
def arm (nfa : Nfa) (action : ActionId) : Nfa :=
  nfa.modify nfa.last fun s => { s with action := some action }

theorem sameGraph_addAction (nfa : Nfa) (action : ActionId) :
    (nfa.arm action).SameGraph (nfa.addAction action) :=
  (sameGraph_modifyAll (nfa.arm action) _ (f := fun _ => State.bind action)
    fun _ _ => ⟨rfl, rfl, rfl⟩).withGroups 0

theorem edge_arm (action : ActionId) (p : Nat) (l : Option Char) (q : Nat) :
    (nfa.arm action).Edge p l q ↔ nfa.Edge p l q := by
  rw [arm, Edge, state_modify]
  split
  · cases l with
    | none => exact Iff.rfl
    | some c => exact Iff.rfl
  · exact Iff.rfl

theorem action_arm (hlast : nfa.last < nfa.states.size) (action : ActionId) (p : Nat) :
    ((nfa.arm action).state p).action =
      if p = nfa.last then some action else (nfa.state p).action := by
  rw [arm, state_modify]
  by_cases hp : p = nfa.last
  · rw [if_pos ⟨hp, hlast⟩, if_pos hp]
  · rw [if_neg fun h => hp h.1, if_neg hp]

theorem language_addAction (nfa : Nfa) (action : ActionId) :
    (nfa.addAction action).language = nfa.language := by
  rw [(sameGraph_addAction nfa action).language_eq]
  ext w
  exact trail_congr (edge_arm action)

section AddAction

variable (hn : nfa.WellFormed) (action : ActionId)

include hn

/-- The last state contributes the new action only, the other states what they have. -/
theorem mem_actions_addAction : a ∈ (nfa.addAction action).actions w ↔
    (∃ q, q ≠ nfa.last ∧ nfa.Reaches w q ∧ (nfa.state q).action = some a) ∨
      a = action ∧ w ∈ nfa.language := by
  rw [(sameGraph_addAction nfa action).actions_eq]
  show (∃ q, Trail (nfa.arm action).Edge nfa.start w q ∧ _) ↔ _
  simp only [trail_congr (edge_arm action), action_arm hn.last_lt]
  refine ⟨?_, ?_⟩
  · intro h
    obtain ⟨q, t, ha⟩ := h
    split at ha
    · next heq =>
      subst heq
      exact .inr ⟨(Option.some.inj ha).symm, t⟩
    · next hq => exact .inl ⟨q, hq, t, ha⟩
  · intro h
    rcases h with ⟨q, hq, t, ha⟩ | ⟨rfl, t⟩
    · exact ⟨q, t, by rw [if_neg hq, ha]⟩
    · exact ⟨nfa.last, t, by rw [if_pos rfl]⟩

theorem wellFormed_arm : (nfa.arm action).WellFormed := by
  have hsize : (nfa.arm action).states.size = nfa.states.size := size_modify _ _
  refine ⟨hsize ▸ hn.start_lt, hsize ▸ hn.last_lt, hn.start_ne_last, fun p l q e => ?_,
    fun p l e => ?_, fun l q e => ?_, ?_, fun p => ?_⟩
  · exact hsize ▸ hn.edge_lt p l q ((edge_arm action p l q).1 e)
  · exact hn.no_edge_start p l ((edge_arm action p l _).1 e)
  · exact hn.no_edge_last l q ((edge_arm action _ l q).1 e)
  · show ((nfa.arm action).state nfa.start).action = none
    rw [action_arm hn.last_lt, if_neg hn.start_ne_last, hn.action_start]
  · rw [arm, state_modify]
    split
    · exact hn.sorted p
    · exact hn.sorted p

theorem wellFormed_addAction : (nfa.addAction action).WellFormed :=
  (sameGraph_addAction nfa action).wellFormed (wellFormed_arm hn action)

end AddAction

/-! ## Copies -/

section Copy

variable (hn : nfa.WellFormed)

include hn

theorem embedding_copy : nfa.Embedding nfa.copy nfa.Moved (nfa.rename 0) 0 0 :=
  (embedding_of_append hn Array.empty 0 nfa.copy rfl).1

theorem language_copy : nfa.copy.language = nfa.language := by
  ext w
  exact (embedding_copy hn).trail_image_iff (moved_start hn) (moved_last hn)

theorem sees_copy : nfa.copy.Sees B nfa.copy.start w ↔
    nfa.Sees (fun b => B (b.shift 0)) nfa.start w :=
  (embedding_copy hn).sees_iff (moved_start hn)

theorem actions_copy (w : List Char) : nfa.copy.actions w = nfa.actions w := by
  ext a
  exact sees_copy (B := Badge.Acts a) hn

theorem recognized_copy : nfa.copy.recognized = nfa.recognized := by
  ext w
  rw [mem_recognized_iff, mem_recognized_iff, language_copy hn, actions_copy hn]

theorem wellFormed_copy : nfa.copy.WellFormed := by
  have h := embedding_copy hn
  have hs := moved_start hn
  have ht := moved_last hn
  refine ⟨h.lt_size _ hs, h.lt_size _ ht, fun heq => ?_, fun p l q e => ?_, fun p l e => ?_,
    fun l q e => ?_, (h.action_eq hs).trans hn.action_start,
    fun p => h.sorted hn.sorted (Nat.zero_le p)⟩
  · exact hn.start_ne_last (h.injective _ _ hs ht heq)
  · obtain ⟨p', q', -, hq', -, -, rfl⟩ := h.exists_edge (Nat.zero_le p) e
    exact h.lt_size _ hq'
  · obtain ⟨p', q', -, hq', e', -, heq⟩ := h.exists_edge (Nat.zero_le p) e
    obtain rfl := h.injective _ _ hs hq' heq
    exact hn.no_edge_start _ _ e'
  · obtain ⟨p', q', hp', -, e', heq, -⟩ := h.exists_edge (Nat.zero_le _) e
    obtain rfl := h.injective _ _ ht hp' heq
    exact hn.no_edge_last _ _ e'

end Copy

end Nfa

end LongestMatch
