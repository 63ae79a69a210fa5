import LongestMatch.Proofs.Compiled
import LongestMatch.Proofs.Speaking

/-!
# Unfinished texts get an action of their own

`completeToSkip` adds an alternative that arms an action on the texts which can be completed to a
recognized one but are none (`Nfa.unfinished`). `completeToSkip_exact` says that it arms exactly
these, and that nothing else changes: no new actions clash, and all other texts keep theirs.

How actions are resolved may depend on the order in which they are met. So it is not enough that an
alternative leads to the actions of both sides (`mem_actions_or`): `armedAt_or` says at which states,
and that the first side's keep their numbers and come first.
-/

namespace LongestMatch

namespace Nfa

variable {nfa other whole settled N : Nfa} {catalog : Catalog} {w : List Char} {p k : Nat}
  {a action : ActionId}

/-! ## Where a text meets its actions -/

open Classical in
/-- The action that a text meets at a state. -/
noncomputable def armedAt (nfa : Nfa) (w : List Char) (p : Nat) : Option ActionId :=
  if nfa.Reaches w p then (nfa.state p).action else none

theorem armedAt_eq_some :
    nfa.armedAt w p = some a ↔ nfa.Reaches w p ∧ (nfa.state p).action = some a := by
  simp [armedAt]

theorem mem_actions_iff_armedAt : a ∈ nfa.actions w ↔ ∃ p, nfa.armedAt w p = some a :=
  exists_congr fun _ => armedAt_eq_some.symm

theorem armedAt_of_actions_eq_empty (h : nfa.actions w = ∅) : nfa.armedAt w p = none := by
  apply Option.eq_none_iff_forall_ne_some.2
  intro a ha
  have hmem : a ∈ nfa.actions w := mem_actions_iff_armedAt.2 ⟨p, ha⟩
  rw [h] at hmem
  exact hmem

/-- The actions are met in the order of the states, as far as one likes to look. -/
theorem filterMap_reached (hk : nfa.states.size ≤ k) :
    (nfa.reached w).filterMap (fun p => (nfa.state p).action) =
      (List.range k).filterMap (nfa.armedAt w) := by
  have hreached : (nfa.reached w).filterMap (fun p => (nfa.state p).action) =
      (List.range nfa.states.size).filterMap (nfa.armedAt w) := by
    rw [reached, List.filterMap_filter]
    apply List.filterMap_congr
    intro p _
    by_cases hp : nfa.Reaches w p
    · simp [armedAt, hp]
    · simp [armedAt, hp]
  obtain ⟨d, rfl⟩ := Nat.exists_eq_add_of_le hk
  -- there are no actions behind the row of states
  have hbehind : ((List.range d).map (nfa.states.size + ·)).filterMap (nfa.armedAt w) = [] := by
    rw [List.filterMap_eq_nil_iff]
    intro p hp
    obtain ⟨i, -, rfl⟩ := List.mem_map.1 hp
    simp [armedAt, state_of_size_le (Nat.le_add_right nfa.states.size i)]
  rw [hreached, List.range_add, List.filterMap_append, hbehind, List.append_nil]

/-- Actions met at the same states are resolved alike. -/
theorem resolution_congr (h : ∀ p, whole.armedAt w p = nfa.armedAt w p) :
    whole.resolution catalog w = nfa.resolution catalog w := by
  rw [resolution, resolution, Resolution.ofSet, Resolution.ofSet,
    filterMap_reached (Nat.le_max_left whole.states.size nfa.states.size),
    filterMap_reached (Nat.le_max_right whole.states.size nfa.states.size), funext h]

section Or

variable (hn : nfa.WellFormed) (ho : other.WellFormed) (h : nfa.or other = .ok whole)

include hn ho h

/-- The first side of an alternative keeps its numbers, and the second side comes behind it. -/
theorem armedAt_or : whole.armedAt w p = some a ↔ nfa.armedAt w p = some a ∨
    ∃ q, other.Moved q ∧ p = other.rename nfa.states.size q ∧ other.armedAt w q = some a := by
  obtain ⟨both, joined, s, t, hb, hs, hl, rfl⟩ := exists_joined_of_or hn ho h
  simp only [armedAt_eq_some]
  rw [hb.armed_or hs hl, or_and_right, hb.trail_first hn.start_lt, hb.s_eq,
    hb.embedding.trail_iff (moved_start ho)]
  refine or_congr (and_congr_right fun t => ?_) ?_
  · rw [hb.state_first p (hn.trail_lt t hn.start_lt)]
  · constructor
    · rintro ⟨⟨q, t, rfl⟩, ha⟩
      have hq := t.invariant hb.embedding.closed (moved_start ho)
      exact ⟨q, hq, rfl, t, by rwa [hb.embedding.action_eq hq] at ha⟩
    · rintro ⟨q, hq, rfl, t, ha⟩
      exact ⟨⟨q, t, rfl⟩, by rwa [hb.embedding.action_eq hq]⟩

/-- Where the second side has no action, those of the first side are resolved as before. -/
theorem resolution_or_of_actions_eq_empty (hnone : other.actions w = ∅) :
    whole.resolution catalog w = nfa.resolution catalog w := by
  apply resolution_congr
  intro p
  apply Option.ext
  intro a
  rw [armedAt_or hn ho h]
  apply or_iff_left
  rintro ⟨q, -, -, ha⟩
  rw [armedAt_of_actions_eq_empty hnone] at ha
  cases ha

end Or

/-! ## What is left unfinished -/

/-- The texts, other than the empty one, that can be completed to a recognized one but are none. -/
def unfinished (nfa : Nfa) : Language Char :=
  {w | w ≠ [] ∧ (∃ v ∈ nfa.recognized, w <+: v) ∧ w ∉ nfa.recognized}

theorem actions_of_mem_unfinished (hw : w ∈ nfa.unfinished) : nfa.actions w = ∅ := by
  rw [← Set.not_nonempty_iff_eq_empty]
  intro hne
  exact hw.2.2 (mem_recognized_iff.2 (.inr hne))

theorem exists_settled (hn : nfa.Built) : ∃ settled, nfa.settled = .ok settled :=
  exists_or_eq_ok ((Nat.zero_add _).trans_le hn.nextGroup_le)

/-- Settled is what is not unfinished. -/
theorem speaks_invert_settled (hn : nfa.WellFormed) (h : nfa.settled = .ok settled) :
    settled.invert.Speaks nfa.unfinished := by
  have hcopy := wellFormed_copy hn
  have hprefixes := speaks_allPrefixes hcopy
  have hset : settled.WellFormed := wellFormed_or hprefixes.invert.wellFormed hcopy h
  have hspeaks := speaks_invert hset
  refine ⟨hspeaks.wellFormed, hspeaks.silent, hspeaks.language_eq.trans ?_⟩
  ext w
  show w ∉ settled.recognized ↔ w ≠ [] ∧ (∃ v ∈ nfa.recognized, w <+: v) ∧ w ∉ nfa.recognized
  rw [mem_recognized_or hprefixes.invert.wellFormed hcopy h, hprefixes.invert.recognized_eq,
    recognized_copy hn, not_or, ← and_assoc]
  apply and_congr_left
  intro _
  show ¬¬(w ≠ [] ∧ ∃ v, w ++ v ∈ nfa.recognized) ↔ _
  rw [not_not]
  apply and_congr_right
  intro _
  constructor
  · rintro ⟨v, hv⟩
    exact ⟨w ++ v, hv, List.prefix_append w v⟩
  · rintro ⟨v, hv, u, rfl⟩
    exact ⟨u, hv⟩

/-! ## Completing -/

section Completed

variable (hn : nfa.WellFormed) (h : nfa.completeToSkip action = .ok whole)

include hn h

theorem mem_actions_completeToSkip :
    a ∈ whole.actions w ↔ a ∈ nfa.actions w ∨ a = action ∧ w ∈ nfa.unfinished := by
  obtain ⟨settled, hsettled, hor⟩ := Except.bind_eq_ok.1 h
  have hskip := speaks_invert_settled hn hsettled
  rw [mem_actions_or hn (wellFormed_addAction hskip.wellFormed action) hor,
    hskip.silent.actions_addAction hskip.wellFormed, hskip.language_eq]
  exact Iff.rfl

theorem resolution_completeToSkip_of_mem (hw : w ∈ nfa.unfinished) :
    whole.resolution catalog w = ⟨some action, []⟩ := by
  apply resolution_eq_some
  ext a
  rw [mem_actions_completeToSkip hn h, actions_of_mem_unfinished hw]
  simp [hw]

theorem resolution_completeToSkip_of_notMem (hw : w ∉ nfa.unfinished) :
    whole.resolution catalog w = nfa.resolution catalog w := by
  obtain ⟨settled, hsettled, hor⟩ := Except.bind_eq_ok.1 h
  have hskip := speaks_invert_settled hn hsettled
  apply resolution_or_of_actions_eq_empty hn (wellFormed_addAction hskip.wellFormed action) hor
  rw [hskip.silent.actions_addAction hskip.wellFormed, hskip.language_eq]
  simp [hw]

/-- No clash is added, and none goes away. -/
theorem clashes_completeToSkip : (∃ w, (whole.resolution catalog w).clashes ≠ []) ↔
    ∃ w, (nfa.resolution catalog w).clashes ≠ [] := by
  apply exists_congr
  intro w
  by_cases hw : w ∈ nfa.unfinished
  · rw [resolution_completeToSkip_of_mem hn h hw,
      resolution_eq_none (actions_of_mem_unfinished hw)]
  · rw [resolution_completeToSkip_of_notMem hn h hw]

end Completed

/-- Completing succeeds and arms the new action on the unfinished texts, which had none. The result
compiles exactly if the automaton did, and then the texts that are not unfinished, above all those
that were recognized, keep their action. -/
theorem completeToSkip_exact (hN : N.Built) (fallback : ActionId) :
    ∃ M, N.completeToSkip fallback = .ok M ∧
      (∀ w, M.actions w = N.actions w ∪ {a | a = fallback ∧ w ∈ N.unfinished}) ∧
      (∀ w ∈ N.unfinished, N.actions w = ∅) ∧
      ∀ catalog failPolicy eofAction,
        ((∃ dfa, M.compile catalog failPolicy eofAction = .ok dfa) ↔
          ∃ dfa, N.compile catalog failPolicy eofAction = .ok dfa) ∧
        ∀ dfa completed, N.compile catalog failPolicy eofAction = .ok dfa →
          M.compile catalog failPolicy eofAction = .ok completed → ∀ text : String,
            (text.toList ∉ N.unfinished → completed.matchWhole? text = dfa.matchWhole? text) ∧
            (text.toList ∈ N.unfinished → completed.matchWhole? text = some fallback) := by
  have hn := hN.wellFormed
  obtain ⟨settled, hsettled⟩ := exists_settled hN
  obtain ⟨M, hor⟩ : ∃ M, N.or (settled.invert.addAction fallback) = .ok M :=
    exists_or_eq_ok hN.nextGroup_le
  have hM : N.completeToSkip fallback = .ok M := Except.bind_eq_ok.2 ⟨settled, hsettled, hor⟩
  refine ⟨M, hM, fun w => ?_, fun w => actions_of_mem_unfinished,
    fun catalog failPolicy eofAction => ⟨?_, fun dfa completed hdfa hcompleted text => ⟨?_, ?_⟩⟩⟩
  · ext a
    exact mem_actions_completeToSkip hn hM
  · rw [exists_compile_iff, exists_compile_iff, clashes_completeToSkip hn hM]
  · intro hw
    rw [matchWhole?_compile hcompleted, matchWhole?_compile hdfa,
      resolution_completeToSkip_of_notMem hn hM hw]
  · intro hw
    rw [matchWhole?_compile hcompleted, resolution_completeToSkip_of_mem hn hM hw]

/-- The first half of `ab` is unfinished. -/
theorem completeToSkip_exact_literal :
    ∃ M, ((literal {} "ab").addAction 7).completeToSkip 3 = .ok M ∧ 3 ∈ M.actions ['a'] := by
  obtain ⟨M, hM, hactions, -⟩ := completeToSkip_exact (.addAction 7 (.literal {} "ab")) 3
  have hrecognized : ∀ w, w ∈ ((literal {} "ab").addAction 7).recognized ↔ w = ['a', 'b'] := by
    intro w
    rw [(silent_literal {} "ab").recognized_addAction (wellFormed_literal {} "ab")]
    exact mem_language_literal
  refine ⟨M, hM, ?_⟩
  rw [hactions]
  refine .inr ⟨rfl, List.cons_ne_nil _ _, ⟨['a', 'b'], (hrecognized _).2 rfl, ['b'], rfl⟩, ?_⟩
  rw [hrecognized]
  decide

end Nfa

end LongestMatch
