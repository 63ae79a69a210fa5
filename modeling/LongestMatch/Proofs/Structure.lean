import LongestMatch.Proofs.Construction

/-!
# What every automaton looks like

`Nfa.Constructed` lists the constructors and operators that are open to everyone; all they lead to
can be built from the elementary ones (`Constructed.built`). So each automaton keeps the rules that
the operators rely on, and `structure_kept` says what they mean for the row of states itself, down
to states that nothing leads to any more: which numbers occur in it, what its two ends are like, and
how its transitions are ordered.

The numbers of an operand are looked up when its states move behind others. That no look-up fails is
part of the statement: each state that is referred to moves along.
-/

namespace LongestMatch

namespace Nfa

/-- The automata that the constructors and operators open to everyone lead to. A plain duplicate is
the automaton itself; `copy` numbers its states anew. -/
inductive Constructed : Nfa → Prop where
  | empty (config : Config) : Constructed (empty config)
  | literal (config : Config) (s : String) : Constructed (literal config s)
  | charSet (config : Config) (ranges : List CharRange) (inverted : Bool) :
      Constructed (charSet config ranges inverted)
  | anyChar (config : Config) : Constructed (anyChar config)
  | ofPattern {config : Config} {pattern : String} {nfa : Nfa} :
      ofPattern config pattern = .ok nfa → Constructed nfa
  | copy {nfa : Nfa} : Constructed nfa → Constructed nfa.copy
  | seq {nfa other whole : Nfa} :
      Constructed nfa → Constructed other → nfa.seq other = .ok whole → Constructed whole
  | or {nfa other whole : Nfa} :
      Constructed nfa → Constructed other → nfa.or other = .ok whole → Constructed whole
  | star {nfa : Nfa} : Constructed nfa → Constructed nfa.star
  | plus {nfa : Nfa} : Constructed nfa → Constructed nfa.plus
  | optional {nfa : Nfa} : Constructed nfa → Constructed nfa.optional
  | withoutMatch {nfa whole : Nfa} :
      Constructed nfa → nfa.withoutMatch = .ok whole → Constructed whole
  | invert {nfa : Nfa} : Constructed nfa → Constructed nfa.invert
  | shortest {nfa : Nfa} : Constructed nfa → Constructed nfa.shortest
  | allPrefixes {nfa : Nfa} : Constructed nfa → Constructed nfa.allPrefixes
  | completeToSkip {nfa whole : Nfa} (fallback : ActionId) :
      Constructed nfa → nfa.completeToSkip fallback = .ok whole → Constructed whole
  | markGroup {nfa whole : Nfa} :
      Constructed nfa → nfa.markGroup = .ok whole → Constructed whole
  | addAction {nfa : Nfa} (action : ActionId) : Constructed nfa → Constructed (nfa.addAction action)
  | orPattern {nfa whole : Nfa} {pattern : String} {action : ActionId} :
      Constructed nfa → nfa.orPattern pattern action = .ok whole → Constructed whole
  | seqPattern {nfa whole : Nfa} {pattern : String} :
      Constructed nfa → nfa.seqPattern pattern = .ok whole → Constructed whole

variable {nfa : Nfa} {p q : Nat}

theorem Constructed.built (h : nfa.Constructed) : nfa.Built := by
  induction h with
  | empty config => exact .empty config
  | literal config s => exact .literal config s
  | charSet config ranges inverted => exact .charSet config ranges inverted
  | anyChar config => exact .anyChar config
  | ofPattern h => exact built_ofPattern h
  | copy _ ih => exact .copy ih
  | seq _ _ h ihn iho => exact .seq ihn iho h
  | or _ _ h ihn iho => exact .or ihn iho h
  | star _ ih => exact .star ih
  | plus _ ih => exact .plus ih
  | optional _ ih => exact .optional ih
  | withoutMatch _ h ih => exact built_withoutMatch ih h
  | invert _ ih => exact .invert ih
  | shortest _ ih => exact .shortest ih
  | allPrefixes _ ih => exact .allPrefixes ih
  | completeToSkip fallback _ h ih => exact built_completeToSkip ih h
  | markGroup _ h ih => exact .markGroup ih h
  | addAction action _ ih => exact .addAction action ih
  | orPattern _ h ih => exact built_orPattern ih h
  | seqPattern _ h ih => exact built_seqPattern ih h

/-! ## The row of states -/

section WellFormed

variable (h : nfa.WellFormed)

include h

theorem WellFormed.start_notMem_targets (p : Nat) : nfa.start ∉ (nfa.state p).targets := by
  rw [h.mem_targets]
  intro hedge
  obtain ⟨l, e⟩ := hedge
  exact h.no_edge_start p l e

theorem WellFormed.targets_last : (nfa.state nfa.last).targets = [] := by
  apply List.eq_nil_iff_forall_not_mem.2
  intro q hq
  obtain ⟨l, e⟩ := h.mem_targets.1 hq
  exact h.no_edge_last l q e

theorem WellFormed.target_lt (hq : q ∈ (nfa.state p).targets) : q < nfa.states.size := by
  obtain ⟨l, e⟩ := h.mem_targets.1 hq
  exact h.edge_lt p l q e

/-- All that a moved state refers to moves along. -/
theorem WellFormed.moved_target (hp : nfa.Moved p) (hq : q ∈ (nfa.state p).targets) :
    nfa.Moved q := by
  obtain ⟨l, e⟩ := h.mem_targets.1 hq
  exact moved_closed h hp e

end WellFormed

theorem moved_iff : nfa.Moved p ↔ p ∈ (nfa.reachable [nfa.start, nfa.last]).toList :=
  (StateSet.mem_toList (StateSet.coherent_reach _ _ _)).symm

/-- The two ends exist and differ; no state refers to the start, the last state refers to none, and
every number that is referred to is that of a state; the start has no action; the transitions of
each state are in order, none of them void, and no character is in two of them. When the states are
moved, all numbers that have to be looked up are found. -/
theorem structure_kept (h : nfa.Constructed) :
    (nfa.start < nfa.states.size ∧ nfa.last < nfa.states.size ∧ nfa.start ≠ nfa.last) ∧
    (∀ p, nfa.start ∉ (nfa.state p).targets) ∧
    (nfa.state nfa.last).targets = [] ∧
    (nfa.state nfa.start).action = none ∧
    (∀ p, ∀ q ∈ (nfa.state p).targets, q < nfa.states.size) ∧
    (∀ p, (∀ t ∈ (nfa.state p).trans, t.lo ≤ t.hi) ∧
      (nfa.state p).trans.Pairwise fun t u => t.hi < u.lo) ∧
    (∀ p ∈ (nfa.reachable [nfa.start, nfa.last]).toList,
      ∀ q ∈ nfa.start :: nfa.last :: (nfa.state p).targets,
        ∃ i, (nfa.reachable [nfa.start, nfa.last]).rank? q = some i) := by
  have hn := h.built.wellFormed
  refine ⟨⟨hn.start_lt, hn.last_lt, hn.start_ne_last⟩, hn.start_notMem_targets, hn.targets_last,
    hn.action_start, fun p q hq => hn.target_lt hq, fun p => ⟨fun t ht => ?_, ?_⟩,
    fun p hp q hq => ?_⟩
  · rw [Char.le_iff_toNat]
    exact (hn.sorted p).lo_le_hi t ht
  · apply (hn.sorted p).pairwise.imp
    intro t u hlt
    rwa [Char.lt_iff_toNat]
  · have hmoved : nfa.Moved q := by
      rcases List.mem_cons.1 hq with rfl | hq
      · exact moved_start hn
      · rcases List.mem_cons.1 hq with rfl | hq
        · exact moved_last hn
        · exact hn.moved_target (moved_iff.2 hp) hq
    obtain ⟨i, hi, -⟩ := rank_of_moved hmoved
    exact ⟨i, hi⟩

/-- An action does not keep an alternative from having two ends of its own. -/
theorem structure_kept_armedOrAny :
    ∃ whole, ((literal {} "ab").addAction 7).or (anyChar {}).star = .ok whole ∧
      (∀ p, whole.start ∉ (whole.state p).targets) ∧ (whole.state whole.last).targets = [] := by
  obtain ⟨whole, h⟩ : ∃ whole, ((literal {} "ab").addAction 7).or (anyChar {}).star = .ok whole :=
    exists_or_eq_ok (by decide)
  have hbuilt : whole.Constructed :=
    .or (.addAction 7 (.literal {} "ab")) (.star (.anyChar {})) h
  obtain ⟨-, hstart, hlast, -⟩ := structure_kept hbuilt
  exact ⟨whole, h, hstart, hlast⟩

end Nfa

end LongestMatch
