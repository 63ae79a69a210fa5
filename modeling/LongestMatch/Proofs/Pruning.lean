import LongestMatch.Proofs.Histories
import LongestMatch.Proofs.Recognizers
import Mathlib.Tactic.IntervalCases

/-!
# Dropping dead edges

An edge is dead if no accepting state can be reached from where it leads (`Recognizer.Live`).
Pruning finds the live states by going backwards from the accepting ones, and takes the edges to all
others away. A path to a live state passes only through live ones, so none of its edges is dropped
(`arcs_prune`), and what was live stays so (`live_prune_iff`). It is put together in
`Recognizer.prune_exact`.
-/

namespace LongestMatch

namespace Recognizer

variable {g : Recognizer} {i j : Nat}

theorem arc_prune (h : g.InRange) : g.prune.Arc i j ↔ g.Arc i j ∧ g.Live j := by
  rw [Arc, edgesOf_prune, Arc, List.mem_map, List.mem_map]
  constructor
  · rintro ⟨t, ht, rfl⟩
    obtain ⟨ht, hkept⟩ := List.mem_filter.1 ht
    exact ⟨⟨t, ht, rfl⟩, (contains_live_iff h).1 hkept⟩
  · rintro ⟨⟨t, ht, rfl⟩, hlive⟩
    exact ⟨t, List.mem_filter.2 ⟨ht, (contains_live_iff h).2 hlive⟩, rfl⟩

/-- A path to a live state is kept. -/
theorem arcs_prune (h : g.InRange) (hlive : g.Live j) (harcs : Relation.ReflTransGen g.Arc i j) :
    Relation.ReflTransGen g.prune.Arc i j := by
  induction harcs using Relation.ReflTransGen.head_induction_on with
  | refl => exact .refl
  | head harc rest ih => exact .head ((arc_prune h).2 ⟨harc, hlive.of_arcs rest⟩) ih

/-- Pruning makes no state live, and none dead. -/
theorem live_prune_iff (h : g.InRange) : g.prune.Live i ↔ g.Live i := by
  rw [Live, Live, size_prune]
  constructor
  · rintro ⟨j, hj, haccept, harcs⟩
    have hmono := Relation.ReflTransGen.mono (fun a b harc => ((arc_prune h).1 harc).1) i j harcs
    exact ⟨j, hj, haccept, hmono⟩
  · rintro ⟨j, hj, haccept, harcs⟩
    exact ⟨j, hj, haccept, arcs_prune h ⟨j, hj, haccept, .refl⟩ harcs⟩

/-- The search for live states expands each of them once. -/
theorem ends_live (g : Recognizer) :
    let start := (StateSet.empty g.size).pushAll [] ((List.range g.size).filter g.accepts)
    StateSet.Ends (fun id => g.predecessors.getD id []) start.1 start.2 g.live.size g.live :=
  StateSet.ends_reach (.empty g.size) (fun id => g.predecessors.getD id [])
    ((List.range g.size).filter g.accepts)

/-- Pruning is exact, for every graph without edges out of it. The search backwards from the
accepting states is over after at most one turn for each state. Of each row, in its order, those
edges are kept from whose target an accepting state can be reached, and no others. Which states
accept does not change, and neither do the texts that are accepted from any of the states. What is
kept leads to a state from which an accepting one can be reached along what is kept. -/
theorem prune_exact (g : Recognizer) (h : g.InRange) :
    (∃ turns ≤ g.size,
      let start := (StateSet.empty g.size).pushAll [] ((List.range g.size).filter g.accepts)
      StateSet.Ends (fun id => g.predecessors.getD id []) start.1 start.2 turns g.live) ∧
    (∃ keep : Transition → Bool,
      (∀ i, ∀ t ∈ g.edgesOf i, (keep t = true ↔ g.Live t.target)) ∧
      g.prune.edges = g.edges.map fun row => row.filter keep) ∧
    g.prune.accepting = g.accepting ∧
    (∀ i, g.prune.acceptedFrom i = g.acceptedFrom i) ∧
    ∀ i, ∀ t ∈ g.prune.edgesOf i, g.prune.Live t.target := by
  refine ⟨⟨g.live.size, g.live.size_le, ends_live g⟩,
    ⟨fun t => g.live.contains t.target, fun i t ht => contains_live_iff h, rfl⟩, rfl,
    acceptedFrom_prune h, fun i t ht => ?_⟩
  have harc : g.prune.Arc i t.target := List.mem_map_of_mem ht
  exact (live_prune_iff h).2 ((arc_prune h).1 harc).2

/-- States 0 and 1 lead to each other, and 0 to the accepting state 3. State 2, where 0 and 3 lead
as well, leads to itself only. -/
theorem prune_exact_circles :
    let g : Recognizer :=
      ⟨#[[⟨.single 'a', 1⟩, ⟨.single 'b', 2⟩, ⟨.single 'c', 3⟩], [⟨.single 'a', 0⟩],
        [⟨.single 'a', 2⟩], [⟨.single 'a', 2⟩]], #[false, false, false, true]⟩
    g.InRange ∧ g.prune.Live 1 ∧
      g.prune.edges =
        #[[⟨.single 'a', 1⟩, ⟨.single 'c', 3⟩], [⟨.single 'a', 0⟩], [], []] := by
  intro g
  have hrange : g.InRange := by
    intro i
    by_cases hi : i < g.size
    · have hi : i < 4 := hi
      interval_cases i <;> decide
    · rw [edgesOf_eq_nil (Nat.not_lt.1 hi)]
      simp
  obtain ⟨-, ⟨keep, hkeep, hedges⟩, -, -, hlive⟩ := prune_exact g hrange
  have hlive₃ : g.Live 3 := ⟨3, by decide, rfl, .refl⟩
  have hlive₀ : g.Live 0 := hlive₃.of_arcs (.single (show 3 ∈ [1, 2, 3] by decide))
  have hlive₁ : g.Live 1 := hlive₀.of_arcs (.single (show 0 ∈ [0] by decide))
  have hstays : ∀ j, Relation.ReflTransGen g.Arc 2 j → j = 2 := by
    intro j harcs
    induction harcs with
    | refl => rfl
    | tail _ harc ih =>
      subst ih
      exact List.mem_singleton.1 harc
  have hdead : ¬g.Live 2 := by
    rintro ⟨j, -, haccept, harcs⟩
    rw [hstays j harcs] at haccept
    cases haccept
  have hkept : keep ⟨.single 'a', 1⟩ = true ∧ keep ⟨.single 'b', 2⟩ = false ∧
      keep ⟨.single 'c', 3⟩ = true ∧ keep ⟨.single 'a', 0⟩ = true ∧
      keep ⟨.single 'a', 2⟩ = false := by
    refine ⟨(hkeep 0 _ (by decide)).2 hlive₁, ?_, (hkeep 0 _ (by decide)).2 hlive₃,
      (hkeep 1 _ (by decide)).2 hlive₀, ?_⟩
    · exact Bool.eq_false_iff.2 fun h => hdead ((hkeep 0 _ (by decide)).1 h)
    · exact Bool.eq_false_iff.2 fun h => hdead ((hkeep 2 _ (by decide)).1 h)
  have hrows : g.prune.edges =
      #[[⟨.single 'a', 1⟩, ⟨.single 'c', 3⟩], [⟨.single 'a', 0⟩], [], []] := by
    rw [hedges]
    simp [g, hkept]
  refine ⟨hrange, hlive 0 ⟨.single 'a', 1⟩ ?_, hrows⟩
  simp [edgesOf, hrows]

end Recognizer

end LongestMatch
