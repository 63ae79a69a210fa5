import LongestMatch.Dfa.Clash
import LongestMatch.Nfa.Operators
import LongestMatch.Pattern.Error

/-!
# Errors

What can go wrong when an automaton is built, compiled or run, and how each cause is reported.
-/

namespace LongestMatch

/-- A cause of failure. -/
inductive Error where
  | pattern (rejection : Pattern.Rejection)
  /-- Actions that could not be reconciled. -/
  | ambiguous (clashes : List Clash)
  | tooManyGroups
  /-- A stack of automata was used in a way that its contents do not allow. -/
  | misuse (reason : String)
  /-- The input could not be read. -/
  | input (reason : String)
deriving DecidableEq

namespace Error

/-- The report on an error. -/
def message : Error → String
  | pattern rejection => "invalid pattern: " ++ rejection.text
  | ambiguous clashes => Clash.describe clashes
  | tooManyGroups =>
    "more than " ++ toString maxGroups ++ " reporting subgroups for one action"
  | misuse reason => "builder misuse: " ++ reason
  | input reason => "reading input: " ++ reason

/-- Reports an overflow of reporting groups. -/
def ofOverflow {α : Type} : Except GroupOverflow α → Except Error α
  | .ok a => .ok a
  | .error .tooManyGroups => .error .tooManyGroups

end Error

end LongestMatch
