import LongestMatch.Action.Basic
import LongestMatch.Nfa.Basic

/-!
# Actions of a set of states

Where a string leads to states with different actions, one action has to stand for them. The actions
are taken in descending order of priority, those of equal priority in the order of their states, and
each one is put before the verdict of what the ones before it came to. Clashes do not end this; they
are collected.
-/

namespace LongestMatch

/-- What the actions of a set of states came to. -/
structure Resolution where
  action : Option ActionId
  /-- The pairs that could not be reconciled, in the order in which they were met. -/
  clashes : List (ActionId × ActionId)

namespace Resolution

/-- Puts one more action before the verdict of the one that prevailed so far. -/
def meet (catalog : Catalog) (sofar : ActionId × List (ActionId × ActionId)) (other : ActionId) :
    ActionId × List (ActionId × ActionId) :=
  match catalog.merge sofar.1 other with
  | .keepSelf => sofar
  | .keepOther => (other, sofar.2)
  | .combined action => (action, sofar.2)
  | .clash => (sofar.1, sofar.2 ++ [(sofar.1, other)])

/-- The actions by descending priority; the order of those with equal priority is kept. -/
def byPriority (catalog : Catalog) (actions : List ActionId) : List ActionId :=
  actions.mergeSort fun a b => catalog.priority b ≤ catalog.priority a

/-- What a list of actions comes to. -/
def ofActions (catalog : Catalog) (actions : List ActionId) : Resolution :=
  match byPriority catalog actions.eraseDups with
  | [] => ⟨none, []⟩
  | first :: others =>
    let result := others.foldl (meet catalog) (first, [])
    ⟨some result.1, result.2⟩

/-- What the actions of a set of states come to. -/
def ofSet (catalog : Catalog) (nfa : Nfa) (set : List Nat) : Resolution :=
  ofActions catalog (set.filterMap fun id => (nfa.state id).action)

end Resolution

end LongestMatch
