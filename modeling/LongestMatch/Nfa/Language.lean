import LongestMatch.Nfa.Atoms
import LongestMatch.Nfa.Operators
import LongestMatch.Recognizer

/-!
# Operators on languages

Complement, shortest match, and the other operators that look at the recognized language as a whole.
They go through the recognizer of their operand, so actions and groups of the operand do not survive
them.
-/

namespace LongestMatch

namespace Nfa

/-- The strings that are not recognized. -/
def invert (nfa : Nfa) : Nfa :=
  (Recognizer.ofNfa nfa).complete.flip.prune.toNfa nfa.config true

/-- The recognized strings that do not begin with a shorter one. -/
def shortest (nfa : Nfa) : Nfa :=
  (Recognizer.ofNfa nfa).stopAtAccepting.prune.toNfa nfa.config true

/-- The strings, other than the empty one, that a recognized string begins with. -/
def allPrefixes (nfa : Nfa) : Nfa :=
  (Recognizer.ofNfa nfa).prune.acceptReachable.toNfa nfa.config false

/-- The automaton between any two texts, or the empty string instead. -/
def anywhere (nfa : Nfa) : Except GroupOverflow Nfa := do
  let any := (anyChar nfa.config).star
  let opened ← any.seq nfa
  let closed ← opened.seq any
  return closed.optional

/-- The strings, other than the empty one, in which no recognized string occurs. -/
def withoutMatch (nfa : Nfa) : Except GroupOverflow Nfa := do
  return (← nfa.anywhere).invert

/-- The empty string, and the strings that are recognized or cannot be completed to a recognized
one. -/
def settled (nfa : Nfa) : Except GroupOverflow Nfa :=
  nfa.copy.allPrefixes.invert.or nfa.copy

/-- Arms `fallback` on the strings, other than the empty one, that can be completed to a recognized
one but are none, so that the tail of an input is never left over. -/
def completeToSkip (nfa : Nfa) (fallback : ActionId) : Except GroupOverflow Nfa := do
  let settled ← nfa.settled
  nfa.or (settled.invert.addAction fallback)

end Nfa

end LongestMatch
