import LongestMatch.Proofs.Construction

/-!
# The laws of the operators

What has been shown of single operators, put together for everything that can be built:

* `operator_laws` — the algebra of automata computes the algebra of languages, and no action of one
  operand leaks into the texts of the other.
* `language_operator_laws` — the operators on languages compute complements, shortest matches and
  prefixes of what their operand recognizes, and leave no trace of its actions and groups.
-/

namespace LongestMatch

open scoped Computability

namespace Nfa

variable {A B N : Nfa}

/-- Texts and actions of alternatives, sequences, repetitions and options, and of an automaton whose
last state is given an action. -/
theorem operator_laws (hA : A.Built) (hB : B.Built) :
    (∀ C, A.or B = .ok C → C.language = A.language + B.language ∧
      ∀ w, C.actions w = A.actions w ∪ B.actions w) ∧
    (∀ C, A.seq B = .ok C → C.language = A.language * B.language ∧
      ∀ w, C.actions w =
        A.actions w ∪ {a | ∃ u v, w = u ++ v ∧ u ∈ A.language ∧ a ∈ B.actions v}) ∧
    (A.star.language = A.language∗ ∧
      ∀ w, A.star.actions w = {a | ∃ u v, w = u ++ v ∧ u ∈ A.language∗ ∧ a ∈ A.actions v}) ∧
    (A.plus.language = A.language * A.language∗ ∧
      ∀ w, A.plus.actions w = {a | ∃ u v, w = u ++ v ∧ u ∈ A.language∗ ∧ a ∈ A.actions v}) ∧
    (A.optional.language = A.language + 1 ∧
      ∀ w, A.optional.actions w =
        A.actions w ∪ {a | w = [] ∧ (A.state A.last).action = some a}) ∧
    (∀ action, (A.addAction action).language = A.language ∧
      ∀ w, (A.addAction action).actions w =
        {a | ∃ q, q ≠ A.last ∧ A.Reaches w q ∧ (A.state q).action = some a} ∪
          {a | a = action ∧ w ∈ A.language}) ∧
    ((∃ e, A.or B = .error e) ↔ 128 < A.nextGroup + B.nextGroup) ∧
    ((∃ e, A.seq B = .error e) ↔ 128 < A.nextGroup + B.nextGroup) := by
  have hA := hA.wellFormed
  have hB := hB.wellFormed
  refine ⟨fun C h => ⟨language_or hA hB h, fun w => ?_⟩,
    fun C h => ⟨language_seq hA hB h, fun w => ?_⟩, ⟨language_star hA, fun w => ?_⟩,
    ⟨language_plus hA, fun w => ?_⟩, ⟨language_optional hA, fun w => ?_⟩,
    fun action => ⟨language_addAction A action, fun w => ?_⟩, or_error_iff, seq_error_iff⟩
  · ext a
    exact mem_actions_or hA hB h
  · ext a
    exact mem_actions_seq hA hB h
  · ext a
    exact mem_actions_loop hA true
  · ext a
    exact mem_actions_loop hA false
  · ext a
    exact mem_actions_optional hA
  · ext a
    exact mem_actions_addAction hA action

/-- Two alternatives with an action each keep their actions apart. -/
theorem operator_laws_anyChar_literal :
    ∃ C, ((anyChar {}).addAction 1).or ((literal {} "ab").addAction 2) = .ok C ∧
      C.language = ((anyChar {}).addAction 1).language + ((literal {} "ab").addAction 2).language ∧
      C.actions ['a'] =
        ((anyChar {}).addAction 1).actions ['a'] ∪
          ((literal {} "ab").addAction 2).actions ['a'] := by
  obtain ⟨hor, -, -, -, -, -, herror, -⟩ :=
    operator_laws (.addAction 1 (.anyChar {})) (.addAction 2 (.literal {} "ab"))
  cases h : ((anyChar {}).addAction 1).or ((literal {} "ab").addAction 2) with
  | ok C => exact ⟨C, rfl, (hor C h).1, (hor C h).2 ['a']⟩
  | error e =>
    have hover := herror.1 ⟨e, h⟩
    have hgroups : ((anyChar {}).addAction 1).nextGroup + ((literal {} "ab").addAction 2).nextGroup
        = 0 := rfl
    omega

/-- What the operators on languages compute, and that nothing else is left of their operand. -/
theorem language_operator_laws (hN : N.Built) :
    (∀ w, w ∈ N.invert.language ↔ w ∉ N.recognized) ∧
    (∀ w, w ∈ N.shortest.language ↔
      w ∈ N.recognized ∧ ∀ u, u <+: w → u ≠ w → u ∉ N.recognized) ∧
    (∀ w, w ∈ N.allPrefixes.language ↔ w ≠ [] ∧ ∃ v ∈ N.recognized, w <+: v) ∧
    ∀ M ∈ [N.invert, N.shortest, N.allPrefixes],
      (∀ p, (M.state p).action = none ∧ (M.state p).marks = {}) ∧ M.nextGroup = 0 := by
  have hlast := hN.wellFormed.last_lt
  refine ⟨fun w => mem_language_invert hlast, fun w => ?_, fun w => ?_, fun M hM => ?_⟩
  · rw [mem_language_shortest hlast]
    refine and_congr_right fun _ => ⟨fun h u hu hne => ?_, fun h u v heq hne => ?_⟩
    · obtain ⟨v, rfl⟩ := hu
      exact h u v rfl fun hv => hne (by rw [hv, List.append_nil])
    · subst heq
      exact h u (List.prefix_append u v) fun heq => hne (List.self_eq_append_right.1 heq)
  · rw [mem_language_allPrefixes hlast]
    refine and_congr_right fun _ => ⟨fun h => ?_, fun h => ?_⟩
    · obtain ⟨v, hv⟩ := h
      exact ⟨w ++ v, hv, List.prefix_append w v⟩
    · obtain ⟨v, hv, u, rfl⟩ := h
      exact ⟨u, hv⟩
  · have htrace : ∀ (g : Recognizer) allowEmpty, M = g.toNfa N.config allowEmpty →
        (∀ p, (M.state p).action = none ∧ (M.state p).marks = {}) ∧ M.nextGroup = 0 := by
      intro g allowEmpty heq
      rw [heq]
      exact ⟨fun p => ⟨Recognizer.action_toNfa p, Recognizer.marks_toNfa p⟩, rfl⟩
    simp only [List.mem_cons, List.not_mem_nil, or_false] at hM
    rcases hM with heq | heq | heq
    · exact htrace _ true heq
    · exact htrace _ true heq
    · exact htrace _ false heq

/-- The complement of `.` takes all texts but those of one character, and has no action left. -/
theorem language_operator_laws_anyChar :
    ['x'] ∉ ((anyChar {}).addAction 7).invert.language ∧
      ['x', 'y'] ∉ ((anyChar {}).addAction 7).allPrefixes.language ∧
      (((anyChar {}).addAction 7).invert.state 0).action = none := by
  obtain ⟨hinvert, -, hprefixes, htrace⟩ := language_operator_laws (.addAction 7 (.anyChar {}))
  have hrec : ∀ w, w ∈ ((anyChar {}).addAction 7).recognized ↔ ∃ c, w = [c] := by
    intro w
    rw [mem_recognized_iff, (silent_anyChar {}).actions_addAction (wellFormed_anyChar {}),
      language_addAction, ← mem_language_anyChar]
    apply or_iff_left_of_imp
    intro h
    obtain ⟨a, ha⟩ := h
    exact ha.2
  refine ⟨?_, ?_, ((htrace _ List.mem_cons_self).1 0).1⟩
  · rw [hinvert, hrec]
    exact fun h => h ⟨'x', rfl⟩
  · rw [hprefixes]
    intro h
    obtain ⟨-, v, hv, hpre⟩ := h
    obtain ⟨c, rfl⟩ := (hrec v).1 hv
    have := hpre.length_le
    simp at this

end Nfa

end LongestMatch
