import LongestMatch.Nfa.Basic

/-!
# Closures under silent edges

Reading a character leads an automaton to several states at once, and from there on along silent
edges. `closure` collects where that may end. Only important states are kept, and the list is
sorted, so that two collections that cannot be told apart by reading on are the same list.
-/

namespace LongestMatch

namespace Nfa

/-- Whether a closure keeps a state. The accepting state of the automaton, if one is given, is kept
whatever it carries. -/
def isKept (nfa : Nfa) (accept : Option Nat) (id : Nat) : Bool :=
  accept == some id || (nfa.state id).isImportant

/-- The kept states that silent edges lead to from `seeds`, the seeds included, in ascending order;
and the set that was used for the search, to be used again. -/
def closure (nfa : Nfa) (accept : Option Nat) (storage : StateSet nfa.states.size)
    (seeds : List Nat) : List Nat × StateSet nfa.states.size :=
  let seen := storage.reach (fun id => (nfa.state id).eps) seeds
  ((List.range nfa.states.size).filter fun id => seen.contains id && nfa.isKept accept id, seen)

end Nfa

end LongestMatch
