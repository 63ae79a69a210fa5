import LongestMatch.Proofs.Effects
import LongestMatch.Proofs.Exactness

/-!
# A pattern matches its language

From a pattern that is accepted an automaton is built whose language is that of the tree of the
pattern; with an action and compiled, it assigns the action to the texts of this language and to no
others (`pattern_meaning`). Each accepted pattern has a tree, and all its trees have this language.
-/

namespace LongestMatch

namespace Nfa

open Pattern

variable {config : Config} {pattern : String} {nfa : Nfa}

/-- The automaton of a pattern speaks the language of its tree. -/
theorem speaks_ofPattern (h : ofPattern config pattern = .ok nfa) {t : Tree} (ht : t.Of pattern) :
    nfa.Speaks t.language := by
  have hspeaks := describes_languages.of_ofPattern lawful_languages h ht
  obtain ⟨ks, -, hderives⟩ := ht
  rwa [hderives.eval_languages] at hspeaks

/-- An accepted pattern has a tree. With any action its automaton compiles, and a text has the
action if it belongs to the language of the tree, and none otherwise. -/
theorem pattern_meaning (h : ofPattern config pattern = .ok nfa) :
    (∃ t : Tree, t.Of pattern) ∧
      ∀ t : Tree, t.Of pattern → ∀ (action : ActionId) (catalog : Catalog)
        (failPolicy : FailPolicy) (eofAction : Option ActionId),
        ∃ dfa, (nfa.addAction action).compile catalog failPolicy eofAction = .ok dfa ∧
          ∀ w : String, (w.toList ∈ t.language → dfa.matchWhole? w = some action) ∧
            (w.toList ∉ t.language → dfa.matchWhole? w = none) := by
  constructor
  · exact exists_tree_of_fault (exists_builder_of_ofPattern h).1
  · intro t htree action catalog failPolicy eofAction
    have hspeaks := speaks_ofPattern h htree
    obtain ⟨dfa, hdfa⟩ := exists_compile_addAction hspeaks.silent hspeaks.wellFormed action catalog
      failPolicy eofAction
    refine ⟨dfa, hdfa, fun w => ?_⟩
    rw [matchWhole?_compile hdfa, resolution_addAction hspeaks.silent hspeaks.wellFormed,
      hspeaks.language_eq]
    constructor
    · intro hw
      rw [if_pos hw]
    · intro hw
      rw [if_neg hw]

/-- The complement of the texts of one character. -/
theorem pattern_meaning_not_any :
    ∃ nfa, ofPattern {} ".~" = .ok nfa ∧
      ∃ dfa, (nfa.addAction 7).compile ⟨fun _ => 0, fun _ _ => .clash, fun a => [a], fun _ => ""⟩
          .copy none = .ok dfa ∧
        dfa.matchWhole? "xy" = some 7 ∧ dfa.matchWhole? "x" = none := by
  have hlexemes : Lexeme.ofGlyphs [⟨.plain '.', 0, 1⟩, ⟨.plain '~', 1, 2⟩] =
      [⟨.operand .any, 0, 1⟩, ⟨.unary .invert, 1, 2⟩] := by
    rw [Lexeme.ofGlyphs]
    show _ :: Lexeme.ofGlyphs [⟨.plain '~', 1, 2⟩] = _
    rw [Lexeme.ofGlyphs]
    show _ :: _ :: Lexeme.ofGlyphs [] = _
    rw [Lexeme.ofGlyphs]
    rfl
  have hscript : Script.ofChars ".~".toList =
      ⟨[.single .any 1, .single (.unary .invert) 2], none⟩ := by
    show Progress.read {} (Lexeme.ofGlyphs [⟨.plain '.', 0, 1⟩, ⟨.plain '~', 1, 2⟩]) = _
    rw [hlexemes]
    rfl
  have hpattern : ofPattern {} ".~" = .ok (anyChar {}).invert := by
    unfold ofPattern Machine.runPattern
    simp only [hscript]
    rfl
  have htree : (Tree.unary .invert .any).Of ".~" :=
    ⟨[.plain '.', .plain '~'], .plain (by decide) (.plain (by decide) .nil),
      .sequence (.factor (.unary .invert (.atom .any)))⟩
  refine ⟨_, hpattern, ?_⟩
  obtain ⟨dfa, hdfa, hmatch⟩ := (pattern_meaning hpattern).2 _ htree 7
    ⟨fun _ => 0, fun _ _ => .clash, fun a => [a], fun _ => ""⟩ .copy none
  refine ⟨dfa, hdfa, (hmatch "xy").1 ?_, (hmatch "x").2 ?_⟩
  · intro h
    obtain ⟨c, hc⟩ := h
    cases hc
  · intro h
    exact h ⟨'x', rfl⟩

end Nfa

end LongestMatch
