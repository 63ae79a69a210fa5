import LongestMatch.Intervals
import LongestMatch.Nfa.Basic

/-!
# Automata of single characters and fixed texts
-/

namespace LongestMatch

namespace Nfa

/-- Adds the code points of a range to a set of code points. -/
def cover (iv : Intervals Nat) (target : Nat) (r : CharRange) : Intervals Nat :=
  iv.overwrite r.lo.toNat r.hi.toNat target

/-- The code points outside a set. -/
def outside (iv : Intervals Nat) (target : Nat) : Intervals Nat :=
  iv.segments.foldl
    (fun outside s => if s.value.isNone then outside.overwrite s.lo s.hi target else outside)
    Intervals.unset

/-- One character that lies in some of the ranges, or with `inverted` in none of them. -/
def charSet (config : Config) (ranges : List CharRange) (inverted : Bool) : Nfa :=
  let nfa := empty config
  let inside := ranges.foldl (fun iv r => cover iv nfa.last r) Intervals.unset
  let chosen := if inverted then outside inside nfa.last else inside
  nfa.modify nfa.start fun s => { s with trans := chosen.toTransitions }

/-- Every character. -/
def everyChar : CharRange :=
  ⟨Char.ofNat 0, Char.ofNat maxCode⟩

/-- Any single character. -/
def anyChar (config : Config) : Nfa :=
  let nfa := empty config
  nfa.modify nfa.start fun s => { s with trans := [⟨everyChar, nfa.last⟩] }

/-- Continues a text from the state `source`: the last character leads to `last`, every other one to
a new state. -/
def spell (nfa : Nfa) (source : Nat) : List Char → Nfa
  | [] => nfa.modify source (State.addEps [nfa.last])
  | [c] =>
    nfa.modify source fun s =>
      { s with trans := s.trans ++ [⟨CharRange.single c, nfa.last⟩] }
  | c :: d :: rest =>
    let fresh := nfa.states.size
    let grown := { nfa with states := nfa.states.push {} }
    spell
      (grown.modify source fun s => { s with trans := s.trans ++ [⟨CharRange.single c, fresh⟩] })
      fresh (d :: rest)

/-- Exactly the text `s`. -/
def literal (config : Config) (s : String) : Nfa :=
  let nfa := empty config
  spell nfa nfa.start s.toList

end Nfa

end LongestMatch
