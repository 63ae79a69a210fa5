import LongestMatch.Proofs.Exactness
import LongestMatch.Proofs.Speaking

/-!
# A character set and its complement

The set of some ranges of characters is built on the code points: each range is written over what is
there, and what the complement takes are the runs that were left unset. The ranges may come in any
order, overlap, repeat each other or hold nothing at all, and the runs may begin or end in the
surrogate gap.

All the same a character set and its complement share the characters out between them
(`Nfa.charSet_complement`), as automata, as recognizers and compiled with an action.
-/

namespace LongestMatch

namespace Nfa

variable {config : Config} {ranges : List CharRange} {w : List Char}

/-- An automaton that speaks a language compiles with any action, and a text has the action exactly
if it belongs to the language. -/
theorem Speaks.exists_compile {nfa : Nfa} {L : Language Char} (h : nfa.Speaks L)
    (action : ActionId) (catalog : Catalog) (failPolicy : FailPolicy)
    (eofAction : Option ActionId) :
    ∃ dfa, (nfa.addAction action).compile catalog failPolicy eofAction = .ok dfa ∧
      ∀ text : String, (dfa.matchWhole? text = some action ↔ text.toList ∈ L) ∧
        (dfa.matchWhole? text = none ↔ text.toList ∉ L) := by
  obtain ⟨dfa, hdfa⟩ :=
    exists_compile_addAction h.silent h.wellFormed action catalog failPolicy eofAction
  refine ⟨dfa, hdfa, fun text => ?_⟩
  rw [matchWhole?_compile hdfa, resolution_addAction h.silent h.wellFormed, h.language_eq]
  split
  · next hw => simp [hw]
  · next hw => simp [hw]

/-- The texts of one character that lies in some of the ranges. -/
def oneOf (ranges : List CharRange) : Language Char :=
  {w | ∃ c, w = [c] ∧ ∃ r ∈ ranges, r.lo ≤ c ∧ c ≤ r.hi}

/-- The texts of one character that lies in none of the ranges. -/
def noneOf (ranges : List CharRange) : Language Char :=
  {w | ∃ c, w = [c] ∧ ∀ r ∈ ranges, ¬(r.lo ≤ c ∧ c ≤ r.hi)}

theorem speaks_oneOf (config : Config) (ranges : List CharRange) :
    (charSet config ranges false).Speaks (oneOf ranges) := by
  simpa [oneOf] using speaks_charSet config ranges false

theorem speaks_noneOf (config : Config) (ranges : List CharRange) :
    (charSet config ranges true).Speaks (noneOf ranges) := by
  simpa [noneOf] using speaks_charSet config ranges true

theorem singleton_mem_oneOf {c : Char} :
    [c] ∈ oneOf ranges ↔ ∃ r ∈ ranges, r.lo ≤ c ∧ c ≤ r.hi := by
  constructor
  · rintro ⟨d, hd, hin⟩
    rwa [List.singleton_inj.1 hd]
  · intro hin
    exact ⟨c, rfl, hin⟩

theorem singleton_mem_noneOf {c : Char} : [c] ∈ noneOf ranges ↔ [c] ∉ oneOf ranges := by
  rw [singleton_mem_oneOf]
  constructor
  · rintro ⟨d, hd, hout⟩ ⟨r, hr, hin⟩
    rw [List.singleton_inj.1 hd] at hin
    exact hout r hr hin
  · intro hout
    exact ⟨c, rfl, fun r hr hin => hout ⟨r, hr, hin⟩⟩

theorem mem_oneOf_or_mem_noneOf : w ∈ oneOf ranges ∨ w ∈ noneOf ranges ↔ ∃ c, w = [c] := by
  constructor
  · rintro (⟨c, hw, -⟩ | ⟨c, hw, -⟩)
    · exact ⟨c, hw⟩
    · exact ⟨c, hw⟩
  · rintro ⟨c, rfl⟩
    rw [singleton_mem_noneOf]
    exact Classical.em _

/-- A character set and its complement partition the characters. The set takes the texts of one
character in some range and the complement those of one character in no range, whether their last
state is asked, what they recognize, or the automaton that each compiles to with an action. So each
character is taken by exactly one of the two, and a text that is no single character by neither. -/
theorem charSet_complement (config : Config) (ranges : List CharRange) :
    let inside := charSet config ranges false
    let outside := charSet config ranges true
    (∀ w, w ∈ inside.language ↔ ∃ c, w = [c] ∧ ∃ r ∈ ranges, r.lo ≤ c ∧ c ≤ r.hi) ∧
    (∀ w, w ∈ outside.language ↔ ∃ c, w = [c] ∧ ∀ r ∈ ranges, ¬(r.lo ≤ c ∧ c ≤ r.hi)) ∧
    (∀ c, [c] ∈ outside.language ↔ [c] ∉ inside.language) ∧
    (∀ w, w ∈ inside.language ∨ w ∈ outside.language ↔ ∃ c, w = [c]) ∧
    (Recognizer.ofNfa inside).accepted = inside.language ∧
    (Recognizer.ofNfa outside).accepted = outside.language ∧
    ∀ (action : ActionId) (catalog : Catalog) (failPolicy : FailPolicy)
      (eofAction : Option ActionId), ∃ within without : Dfa,
        (inside.addAction action).compile catalog failPolicy eofAction = .ok within ∧
        (outside.addAction action).compile catalog failPolicy eofAction = .ok without ∧
        ∀ text : String,
          (within.matchWhole? text = some action ↔ text.toList ∈ inside.language) ∧
          (within.matchWhole? text = none ↔ text.toList ∉ inside.language) ∧
          (without.matchWhole? text = some action ↔ text.toList ∈ outside.language) ∧
          (without.matchWhole? text = none ↔ text.toList ∉ outside.language) := by
  intro inside outside
  have hin : inside.Speaks (oneOf ranges) := speaks_oneOf config ranges
  have hout : outside.Speaks (noneOf ranges) := speaks_noneOf config ranges
  rw [Recognizer.accepted_ofNfa hin.wellFormed.last_lt, hin.recognized_eq,
    Recognizer.accepted_ofNfa hout.wellFormed.last_lt, hout.recognized_eq, hin.language_eq,
    hout.language_eq]
  refine ⟨fun w => Iff.rfl, fun w => Iff.rfl, fun c => singleton_mem_noneOf,
    fun w => mem_oneOf_or_mem_noneOf, rfl, rfl, fun action catalog failPolicy eofAction => ?_⟩
  obtain ⟨within, hwithin, hmatch⟩ := hin.exists_compile action catalog failPolicy eofAction
  obtain ⟨without, hwithout, hmatch'⟩ := hout.exists_compile action catalog failPolicy eofAction
  exact ⟨within, without, hwithin, hwithout, fun text =>
    ⟨(hmatch text).1, (hmatch text).2, (hmatch' text).1, (hmatch' text).2⟩⟩

/-- Two ranges up to the surrogate gap and behind it leave no character over. -/
example :
    (charSet {} [⟨Char.ofNat 0, '\uD7FF'⟩, ⟨'\uE000', Char.ofNat maxCode⟩] true).states =
      #[{}, {}] := by
  rfl

end Nfa

end LongestMatch
