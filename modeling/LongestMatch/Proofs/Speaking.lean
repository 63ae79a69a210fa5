import LongestMatch.Proofs.Badges

/-!
# Automata that stand for languages

Before an action is added, all that counts of an automaton is its language. `Nfa.Speaks` says that
an automaton keeps the rules, has no action and has a given language; each operator makes of
automata that speak languages one that speaks the language which the operator stands for.
-/

namespace LongestMatch

open scoped Computability

namespace Nfa

variable {nfa other whole : Nfa}

/-! ## Automata that stand for languages -/

/-- An automaton without actions whose language is `L`. -/
structure Speaks (nfa : Nfa) (L : Language Char) : Prop where
  wellFormed : nfa.WellFormed
  silent : nfa.Silent
  language_eq : nfa.language = L

variable {L M : Language Char}

/-- Without actions the last state alone decides. -/
theorem Speaks.recognized_eq (h : nfa.Speaks L) : nfa.recognized = L := by
  rw [← h.language_eq]
  ext w
  rw [mem_recognized_iff, h.silent.actions_eq]
  simp

theorem Speaks.seq (h : nfa.Speaks L) (ho : other.Speaks M) (hwhole : nfa.seq other = .ok whole) :
    whole.Speaks (L * M) :=
  ⟨wellFormed_seq h.wellFormed ho.wellFormed hwhole,
    h.silent.seq h.wellFormed ho.wellFormed ho.silent hwhole,
    by rw [language_seq h.wellFormed ho.wellFormed hwhole, h.language_eq, ho.language_eq]⟩

theorem Speaks.or (h : nfa.Speaks L) (ho : other.Speaks M) (hwhole : nfa.or other = .ok whole) :
    whole.Speaks (L + M) :=
  ⟨wellFormed_or h.wellFormed ho.wellFormed hwhole,
    h.silent.or h.wellFormed ho.wellFormed ho.silent hwhole,
    by rw [language_or h.wellFormed ho.wellFormed hwhole, h.language_eq, ho.language_eq]⟩

theorem Speaks.star (h : nfa.Speaks L) : nfa.star.Speaks (L∗) :=
  ⟨wellFormed_loop h.wellFormed true, h.silent.loop true,
    by rw [language_star h.wellFormed, h.language_eq]⟩

theorem Speaks.plus (h : nfa.Speaks L) : nfa.plus.Speaks (L * L∗) :=
  ⟨wellFormed_loop h.wellFormed false, h.silent.loop false,
    by rw [language_plus h.wellFormed, h.language_eq]⟩

theorem Speaks.optional (h : nfa.Speaks L) : nfa.optional.Speaks (L + 1) :=
  ⟨wellFormed_optional h.wellFormed, h.silent.optional,
    by rw [language_optional h.wellFormed, h.language_eq]⟩

theorem Speaks.copy (h : nfa.Speaks L) : nfa.copy.Speaks L :=
  ⟨wellFormed_copy h.wellFormed, h.silent.copy h.wellFormed,
    by rw [language_copy h.wellFormed, h.language_eq]⟩

theorem Speaks.markGroup (h : nfa.Speaks L) (hwhole : nfa.markGroup = .ok whole) :
    whole.Speaks L := by
  have hsame := sameGraph_markGroup hwhole
  refine ⟨hsame.wellFormed h.wellFormed, h.silent.markGroup hwhole, ?_⟩
  rw [hsame.language_eq, h.language_eq]

/-- Whatever an operand of the operators on languages is, what they make of it has no actions. -/
theorem speaks_invert (hn : nfa.WellFormed) : nfa.invert.Speaks {w | w ∉ nfa.recognized} := by
  refine ⟨wellFormed_invert nfa, fun p => Recognizer.action_toNfa p, ?_⟩
  ext w
  exact mem_language_invert hn.last_lt

theorem speaks_shortest (hn : nfa.WellFormed) : nfa.shortest.Speaks
    {w | w ∈ nfa.recognized ∧ ∀ u v, w = u ++ v → v ≠ [] → u ∉ nfa.recognized} := by
  refine ⟨wellFormed_shortest nfa, fun p => Recognizer.action_toNfa p, ?_⟩
  ext w
  exact mem_language_shortest hn.last_lt

theorem speaks_allPrefixes (hn : nfa.WellFormed) :
    nfa.allPrefixes.Speaks {w | w ≠ [] ∧ ∃ v, w ++ v ∈ nfa.recognized} := by
  refine ⟨wellFormed_allPrefixes nfa, fun p => Recognizer.action_toNfa p, ?_⟩
  ext w
  exact mem_language_allPrefixes hn.last_lt

theorem Speaks.invert (h : nfa.Speaks L) : nfa.invert.Speaks {w | w ∉ L} := by
  rw [← h.recognized_eq]
  exact speaks_invert h.wellFormed

theorem Speaks.shortest (h : nfa.Speaks L) :
    nfa.shortest.Speaks {w | w ∈ L ∧ ∀ u v, w = u ++ v → v ≠ [] → u ∉ L} := by
  rw [← h.recognized_eq]
  exact speaks_shortest h.wellFormed

theorem Speaks.allPrefixes (h : nfa.Speaks L) :
    nfa.allPrefixes.Speaks {w | w ≠ [] ∧ ∃ v, w ++ v ∈ L} := by
  rw [← h.recognized_eq]
  exact speaks_allPrefixes h.wellFormed

theorem speaks_anyChar (config : Config) : (anyChar config).Speaks {w | ∃ c, w = [c]} := by
  refine ⟨wellFormed_anyChar config, silent_anyChar config, ?_⟩
  ext w
  exact mem_language_anyChar

theorem speaks_literal (config : Config) (s : String) : (literal config s).Speaks {s.toList} := by
  refine ⟨wellFormed_literal config s, silent_literal config s, ?_⟩
  ext w
  exact mem_language_literal

theorem speaks_charSet (config : Config) (ranges : List CharRange) (inverted : Bool) :
    (charSet config ranges inverted).Speaks
      {w | ∃ c, w = [c] ∧ ((∃ r ∈ ranges, r.lo ≤ c ∧ c ≤ r.hi) ↔ inverted = false)} := by
  refine ⟨wellFormed_charSet config ranges inverted, silent_charSet config ranges inverted, ?_⟩
  ext w
  refine mem_language_charSet.trans (exists_congr fun c => and_congr_right fun _ => ?_)
  have hcontains : ∀ r : CharRange, r.contains c = true ↔ r.lo ≤ c ∧ c ≤ r.hi := by
    intro r
    rw [CharRange.contains, Bool.and_eq_true, decide_eq_true_eq, decide_eq_true_eq]
  cases inverted with
  | false => simp [InSet, hcontains]
  | true => simp [InSet, ← hcontains]

theorem kstar_eq_top (h : ∀ c, [c] ∈ L) : L∗ = ⊤ := by
  apply eq_top_iff.2
  intro w hw
  clear hw
  refine Language.mem_kstar.2 ⟨w.map fun c => [c], ?_, fun y hy => ?_⟩
  · induction w with
    | nil => rfl
    | cons c w ih =>
      rw [List.map_cons, List.flatten_cons, ← ih]
      rfl
  · obtain ⟨c, -, rfl⟩ := List.mem_map.1 hy
    exact h c

theorem speaks_anyText (config : Config) : (anyChar config).star.Speaks ⊤ := by
  rw [← kstar_eq_top (L := {w | ∃ c, w = [c]}) fun c => ⟨c, rfl⟩]
  exact (speaks_anyChar config).star

end Nfa

end LongestMatch
