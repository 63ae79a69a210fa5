/-!
# Actions, as automata see them

An automaton knows an action by its number only, so two actions with the same effect stay two. What
it asks about them stands in a `Catalog`: the priority, which of two actions prevails where both
match, the actions that a combined one stands for, and how to name an action in a report.
-/

namespace LongestMatch

/-- An action is known by its number. -/
abbrev ActionId := Nat

/-- The outcome where two actions meet, asked of the first of them. -/
inductive Verdict where
  /-- The action that was asked prevails. -/
  | keepSelf
  /-- The other action prevails. -/
  | keepOther
  /-- A third action stands for both. -/
  | combined (action : ActionId)
  /-- The two exclude each other. -/
  | clash
deriving DecidableEq

/-- The verdict by priority alone: the greater one prevails, equal ones clash. -/
def Verdict.byPriority (own other : Int) : Verdict :=
  if other < own then .keepSelf
  else if own < other then .keepOther
  else .clash

/-- What is known about the actions of an automaton. -/
structure Catalog where
  priority : ActionId → Int
  /-- The verdict of the first action about the second. -/
  merge : ActionId → ActionId → Verdict
  /-- The actions that a combined action stands for. -/
  parts : ActionId → List ActionId
  /-- The name of an action in reports. -/
  describe : ActionId → String

end LongestMatch
