import LongestMatch.Proofs.Speaking

/-!
# Texts that contain no match

`withoutMatch` is the complement of the automaton between any two texts (`anywhere`). Whatever leads
to the last state of the operand may be followed by any text. What leads to an action elsewhere is
recognized as well, but nothing follows it: there the text ends.

* `mem_recognized_anywhere` — a match occurs somewhere, or one that leads to an action at the end.
* `withoutMatch_exact` — which texts are left, for every operand, and that they are those without a
  match if all recognized texts lead to the last state.
* `withoutMatch_armedThenGoOn` — an operand for which they are not.
-/

namespace LongestMatch

open scoped Computability

namespace Nfa

variable {nfa opened closed inside whole X : Nfa} {w : List Char} {a : ActionId}

/-! ## Between any two texts -/

theorem exists_anywhere (hn : nfa.Built) : ∃ inside, nfa.anywhere = .ok inside := by
  have hgroups : (anyChar nfa.config).star.nextGroup + nfa.nextGroup ≤ maxGroups :=
    (Nat.zero_add _).trans_le hn.nextGroup_le
  obtain ⟨opened, hopened⟩ := exists_seq_eq_ok hgroups
  obtain ⟨closed, hclosed⟩ : ∃ closed, opened.seq (anyChar nfa.config).star = .ok closed :=
    exists_seq_eq_ok ((nextGroup_seq hopened).trans_le hgroups)
  exact ⟨closed.optional, Except.bind_eq_ok.2 ⟨opened, hopened,
    Except.bind_eq_ok.2 ⟨closed, hclosed, rfl⟩⟩⟩

section Between

variable (hn : nfa.WellFormed) (hopened : (anyChar nfa.config).star.seq nfa = .ok opened)

include hn hopened

/-- Any text, and then the automaton. -/
theorem mem_language_opened : w ∈ opened.language ↔ ∃ v ∈ nfa.language, v <:+ w := by
  have hany := speaks_anyText nfa.config
  rw [language_seq hany.wellFormed hn hopened, hany.language_eq, Language.mem_mul]
  constructor
  · rintro ⟨u, -, v, hv, rfl⟩
    exact ⟨v, hv, u, rfl⟩
  · rintro ⟨v, hv, u, rfl⟩
    exact ⟨u, trivial, v, hv, rfl⟩

theorem mem_actions_opened : a ∈ opened.actions w ↔ ∃ v, v <:+ w ∧ a ∈ nfa.actions v := by
  have hany := speaks_anyText nfa.config
  rw [mem_actions_seq hany.wellFormed hn hopened, hany.silent.actions_eq, hany.language_eq]
  constructor
  · rintro (ha | ⟨u, v, rfl, -, ha⟩)
    · cases ha
    · exact ⟨v, ⟨u, rfl⟩, ha⟩
  · rintro ⟨v, ⟨u, rfl⟩, ha⟩
    exact .inr ⟨u, v, rfl, trivial, ha⟩

theorem wellFormed_opened : opened.WellFormed :=
  wellFormed_seq (speaks_anyText nfa.config).wellFormed hn hopened

variable (hclosed : opened.seq (anyChar nfa.config).star = .ok closed)

include hclosed

/-- Any text after it, too. -/
theorem mem_language_closed : w ∈ closed.language ↔ ∃ v ∈ nfa.language, v <:+: w := by
  have hany := speaks_anyText nfa.config
  rw [language_seq (wellFormed_opened hn hopened) hany.wellFormed hclosed, hany.language_eq,
    Language.mem_mul]
  constructor
  · rintro ⟨u, hu, x, -, rfl⟩
    obtain ⟨v, hv, hsuffix⟩ := (mem_language_opened hn hopened).1 hu
    exact ⟨v, hv, hsuffix.isInfix.trans (List.prefix_append u x).isInfix⟩
  · rintro ⟨v, hv, u, x, rfl⟩
    exact ⟨u ++ v, (mem_language_opened hn hopened).2 ⟨v, hv, u, rfl⟩, x, trivial, rfl⟩

/-- An action is not handed on to the texts after it. -/
theorem mem_actions_closed : a ∈ closed.actions w ↔ ∃ v, v <:+ w ∧ a ∈ nfa.actions v := by
  have hany := speaks_anyText nfa.config
  rw [mem_actions_seq (wellFormed_opened hn hopened) hany.wellFormed hclosed,
    mem_actions_opened hn hopened]
  apply or_iff_left
  rintro ⟨u, x, -, -, ha⟩
  rw [hany.silent.actions_eq] at ha
  exact ha

theorem wellFormed_closed : closed.WellFormed :=
  wellFormed_seq (wellFormed_opened hn hopened) (speaks_anyText nfa.config).wellFormed hclosed

end Between

section Anywhere

variable (hn : nfa.WellFormed) (h : nfa.anywhere = .ok inside)

include hn h

theorem wellFormed_anywhere : inside.WellFormed := by
  obtain ⟨opened, hopened, h⟩ := Except.bind_eq_ok.1 h
  obtain ⟨closed, hclosed, h⟩ := Except.bind_eq_ok.1 h
  cases h
  exact wellFormed_optional (wellFormed_closed hn hopened hclosed)

theorem mem_recognized_anywhere : w ∈ inside.recognized ↔ w = [] ∨
    (∃ v ∈ nfa.language, v <:+: w) ∨ ∃ v, v <:+ w ∧ (nfa.actions v).Nonempty := by
  obtain ⟨opened, hopened, h⟩ := Except.bind_eq_ok.1 h
  obtain ⟨closed, hclosed, h⟩ := Except.bind_eq_ok.1 h
  cases h
  have hwf := wellFormed_closed hn hopened hclosed
  rw [mem_recognized_iff, language_optional hwf, Language.mem_add, Language.mem_one,
    mem_language_closed hn hopened hclosed, or_comm (b := w = []), or_assoc]
  rcases eq_or_ne w [] with rfl | hw
  · simp
  · -- passing over the automaton leads to its last state, but by the empty text only
    refine or_congr_right (or_congr_right ?_)
    simp only [Set.Nonempty, mem_actions_optional hwf, hw, false_and, or_false,
      mem_actions_closed hn hopened hclosed]
    constructor
    · rintro ⟨a, v, hv, ha⟩
      exact ⟨v, hv, a, ha⟩
    · rintro ⟨v, hv, a, ha⟩
      exact ⟨a, v, hv, ha⟩

end Anywhere

/-! ## Without a match -/

theorem speaks_withoutMatch (hn : nfa.WellFormed) (h : nfa.withoutMatch = .ok whole) :
    whole.Speaks {w | w ≠ [] ∧ (∀ v, v <:+: w → v ∉ nfa.language) ∧
      ∀ v, v <:+ w → nfa.actions v = ∅} := by
  obtain ⟨inside, hinside, h⟩ := Except.bind_eq_ok.1 h
  cases h
  have hspeaks := speaks_invert (wellFormed_anywhere hn hinside)
  refine ⟨hspeaks.wellFormed, hspeaks.silent, hspeaks.language_eq.trans ?_⟩
  ext w
  show w ∉ inside.recognized ↔ w ≠ [] ∧ (∀ v, v <:+: w → v ∉ nfa.language) ∧
    ∀ v, v <:+ w → nfa.actions v = ∅
  rw [mem_recognized_anywhere hn hinside]
  simp only [not_or, not_exists, not_and, Set.not_nonempty_iff_eq_empty]
  refine and_congr_right fun _ => and_congr_left fun _ => forall_congr' fun v => ?_
  exact ⟨fun hno hinfix hv => hno hv hinfix, fun hno hv hinfix => hno hinfix hv⟩

theorem Speaks.withoutMatch {L : Language Char} (hL : nfa.Speaks L)
    (h : nfa.withoutMatch = .ok whole) :
    whole.Speaks {w | w ≠ [] ∧ ∀ u v x, w = u ++ v ++ x → v ∉ L} := by
  have hspeaks := speaks_withoutMatch hL.wellFormed h
  refine ⟨hspeaks.wellFormed, hspeaks.silent, hspeaks.language_eq.trans ?_⟩
  ext w
  apply and_congr_right
  intro _
  rw [and_iff_left fun v _ => hL.silent.actions_eq v, hL.language_eq]
  constructor
  · rintro hno u v x rfl
    exact hno v ⟨u, x, rfl⟩
  · rintro hno v ⟨u, x, rfl⟩
    exact hno u v x rfl

/-- The texts left are those, other than the empty one, in which no text of the language occurs and
at whose end none occurs that leads to an action. If the operand recognizes its language only, these
are the texts in which nothing recognized occurs. -/
theorem withoutMatch_exact (hX : X.Built) :
    ∃ Y, X.withoutMatch = .ok Y ∧
      (∀ w, w ∈ Y.language ↔ w ≠ [] ∧ (∀ v, v <:+: w → v ∉ X.language) ∧
        ∀ v, v <:+ w → X.actions v = ∅) ∧
      (X.recognized = X.language →
        ∀ w, w ∈ Y.language ↔ w ≠ [] ∧ ∀ v, v <:+: w → v ∉ X.recognized) ∧
      ∀ w, Y.actions w = ∅ := by
  obtain ⟨inside, hinside⟩ := exists_anywhere hX
  have hY : X.withoutMatch = .ok inside.invert := Except.bind_eq_ok.2 ⟨inside, hinside, rfl⟩
  have hspeaks := speaks_withoutMatch hX.wellFormed hY
  have hlanguage : ∀ w, w ∈ inside.invert.language ↔ w ≠ [] ∧
      (∀ v, v <:+: w → v ∉ X.language) ∧ ∀ v, v <:+ w → X.actions v = ∅ := by
    intro w
    rw [hspeaks.language_eq]
    exact Iff.rfl
  refine ⟨inside.invert, hY, hlanguage, fun hsame w => ?_, hspeaks.silent.actions_eq⟩
  rw [hlanguage, hsame]
  refine and_congr_right fun _ => and_iff_left_of_imp fun hno v hv => ?_
  -- a text that leads to an action is recognized, so it is one of the language
  rw [← Set.not_nonempty_iff_eq_empty]
  intro hne
  apply hno v hv.isInfix
  rw [← hsame, mem_recognized_iff]
  exact .inr hne

/-- No text with `ab` in it is left. -/
theorem withoutMatch_exact_literal :
    ∃ Y, ((literal {} "ab").addAction 7).withoutMatch = .ok Y ∧ ['a', 'b', 'c'] ∉ Y.language := by
  have hsilent := silent_literal {} "ab"
  have hwf := wellFormed_literal {} "ab"
  obtain ⟨Y, hY, -, hexact, -⟩ := withoutMatch_exact (.addAction 7 (.literal {} "ab"))
  have hsame : ((literal {} "ab").addAction 7).recognized =
      ((literal {} "ab").addAction 7).language := by
    rw [hsilent.recognized_addAction hwf, language_addAction]
  refine ⟨Y, hY, fun hw => ?_⟩
  apply ((hexact hsame _).1 hw).2 ['a', 'b'] ⟨[], ['c'], rfl⟩
  rw [hsilent.recognized_addAction hwf]
  exact mem_language_literal.2 rfl

/-- An `a` with an action, and then `b`: the `a` is recognized, but it is not looked for inside a
text. -/
theorem withoutMatch_armedThenGoOn :
    ∃ X Y, ((literal {} "a").addAction 7).seq (literal {} "b") = .ok X ∧ X.withoutMatch = .ok Y ∧
      ['a'] ∈ X.recognized ∧ ['a'] <:+: ['a', 'c'] ∧ ['a', 'c'] ∈ Y.language := by
  have ha := speaks_literal {} "a"
  have hb := speaks_literal {} "b"
  have harmed := wellFormed_addAction ha.wellFormed 7
  obtain ⟨X, hX⟩ : ∃ X, ((literal {} "a").addAction 7).seq (literal {} "b") = .ok X :=
    exists_seq_eq_ok (by decide)
  have hlanguage : X.language = {['a', 'b']} := by
    rw [language_seq harmed hb.wellFormed hX, language_addAction, ha.language_eq, hb.language_eq]
    exact Set.image2_singleton
  have hactions : ∀ w, X.actions w = {x | x = 7 ∧ w = ['a']} := by
    intro w
    ext x
    rw [mem_actions_seq harmed hb.wellFormed hX, ha.silent.actions_addAction ha.wellFormed,
      ha.language_eq]
    apply or_iff_left
    rintro ⟨u, v, -, -, hx⟩
    rw [hb.silent.actions_eq] at hx
    exact hx
  have hbuilt : X.Built := .seq (.addAction 7 (.literal {} "a")) (.literal {} "b") hX
  obtain ⟨inside, hinside⟩ := exists_anywhere hbuilt
  have hY : X.withoutMatch = .ok inside.invert := Except.bind_eq_ok.2 ⟨inside, hinside, rfl⟩
  refine ⟨X, inside.invert, hX, hY, ?_, by decide, ?_⟩
  · rw [mem_recognized_iff, hactions]
    exact .inr ⟨7, rfl, rfl⟩
  · rw [(speaks_withoutMatch hbuilt.wellFormed hY).language_eq]
    refine ⟨List.cons_ne_nil _ _, fun v hv hmem => ?_, fun v hv => ?_⟩
    · rw [hlanguage] at hmem
      obtain rfl : v = ['a', 'b'] := hmem
      exact absurd hv (by decide)
    · rw [hactions, Set.eq_empty_iff_forall_notMem]
      rintro x ⟨-, rfl⟩
      exact absurd hv (by decide)

end Nfa

end LongestMatch
