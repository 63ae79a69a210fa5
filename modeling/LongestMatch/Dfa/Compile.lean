import LongestMatch.Dfa.Basic
import LongestMatch.Dfa.Clash
import LongestMatch.Dfa.Resolve
import LongestMatch.Subset.Exploration

/-!
# Compiling an automaton

Each set of the subset construction becomes a state: its edges become a table, its actions are
resolved to one, its bound markers are put together. If actions clash anywhere, the answer is the
report on all clashes. An automaton without any action becomes the one that matches nothing.
-/

namespace LongestMatch

namespace Nfa

/-- The bound markers of a set of states. -/
def marksOfSet (nfa : Nfa) (set : List Nat) : Marks :=
  set.foldl (fun marks id => marks.addBound (nfa.state id).marks) {}

/-- The clashes among resolutions that belong to the numbers from `id` on. -/
def clashesFrom (id : Nat) : List Resolution → List Clash.Found
  | [] => []
  | r :: rest => r.clashes.map (fun pair => ⟨id, pair.1, pair.2⟩) ++ clashesFrom (id + 1) rest

/-- One compiled state. -/
def compiledState (nfa : Nfa) (catalog : Catalog) (set : List Nat)
    (edges : List (CharRange × Nat)) : DfaState where
  table := nfa.tableOf edges
  action := (Resolution.ofSet catalog nfa set).action
  marks := nfa.marksOfSet set

/-- The states of the compiled automaton, or the report on its clashes. -/
def compiledStates (nfa : Nfa) (catalog : Catalog) : Except (List Clash) (Array DfaState) :=
  let found := nfa.exploreSubsets none
  let resolutions := found.nodes.toList.map (Resolution.ofSet catalog nfa)
  match clashesFrom 0 resolutions with
  | [] =>
    if resolutions.all fun r => r.action.isNone then .ok (Array.singleton {})
    else .ok (Array.zipWith (nfa.compiledState catalog) found.nodes found.edges)
  | clashes => .error (Clash.report catalog (found.edges.map nfa.rowOf) clashes)

/-- The compiled automaton. What `failPolicy` and `eofAction` say is kept for whoever runs it. -/
def compile (nfa : Nfa) (catalog : Catalog) (failPolicy : FailPolicy)
    (eofAction : Option ActionId) : Except (List Clash) Dfa := do
  return { states := ← nfa.compiledStates catalog, catalog, failPolicy, eofAction }

end Nfa

end LongestMatch
