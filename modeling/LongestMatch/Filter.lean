import LongestMatch.Action.Stock
import LongestMatch.Dfa.Match

/-!
# Filtering a text

A filter takes a text apart into longest matches, one after another, and applies the action of each
to the output. A character that no match begins with, or only the empty one, goes the way of the
fail policy. After the end of the text the action for that, if there is one, is applied to the end
of the output.
-/

namespace LongestMatch

namespace Filter

/-- What a filter met on its way. -/
inductive Note where
  /-- A match, with its spans. -/
  | token (action : ActionId) (text : String) (spans : List Span)
  /-- A character that ended the filter because the fail policy calls it an error. -/
  | refused (c : Char)

/-- What a filter leaves behind. -/
structure Result where
  notes : List Note
  out : String
  source : Source
  /-- The spans of the latest attempt at a match. -/
  spans : List Span
  /-- The action of the latest attempt and where its match begins in the output, if it matched. -/
  last : Option (ActionId × Nat)

/-- The output after an action was applied. A failing action leaves it as it is. -/
def applied (actions : Array Action) (action : ActionId) (out : String) (start : Nat)
    (spans : Option (List Span)) : String :=
  match (actions.getD action .copy).apply out start spans with
  | .ok out => out
  | .error _ => out

/-- The notes and the output after an attempt at a match; with `track` the action gets the spans. -/
def afterMatch (actions : Array Action) (track : Bool) (step : MatchStep) (notes : List Note)
    (out : String) : List Note × String :=
  match step.result with
  | .ok (.matched action) =>
    let spans := if track then some step.spans else none
    (notes ++ [.token action (String.ofList step.added) step.spans],
      applied actions action (step.extend out) out.utf8ByteSize spans)
  | _ => (notes, step.extend out)

/-- Filters what a source still yields, with the notes and the output made so far. -/
def filterFrom (dfa : Dfa) (actions : Array Action) (track : Bool) (src : Source)
    (notes : List Note) (out : String) : Result :=
  let step := dfa.matchNext src out
  have taken : step.added ++ step.source.remaining = src.remaining :=
    dfa.added_matchLimited none src out
  let last := step.action?.map fun action => (action, out.utf8ByteSize)
  let (notes, out) := afterMatch actions track step notes out
  let stop : Result := ⟨notes, out, step.source, step.spans, last⟩
  match step.result with
  | .error _ => stop
  | .ok .endOfInput => stop
  | .ok _ =>
    if hadded : step.added ≠ [] then
      have : step.source.remaining.length < src.remaining.length := by
        have := List.length_pos_iff.2 hadded
        rw [← taken, List.length_append]
        omega
      filterFrom dfa actions track step.source notes out
    else
      match hread : step.source.read with
      | (.char c, rest) =>
        have : rest.remaining.length < src.remaining.length := by
          have := step.source.remaining_read
          rw [hread] at this
          rw [← taken, this, List.length_append, List.length_cons]
          omega
        match dfa.failPolicy with
        | .copy => filterFrom dfa actions track rest notes (out.push c)
        | .drop => filterFrom dfa actions track rest notes out
        | .raise => { stop with notes := notes ++ [.refused c], source := rest }
      | (_, rest) => { stop with source := rest }
termination_by src.remaining.length
decreasing_by all_goals assumption

/-- Filters a text. -/
def run (dfa : Dfa) (actions : Array Action) (track : Bool) (text : String) : Result :=
  let result := filterFrom dfa actions track (Source.ofString text) [] ""
  match dfa.eofAction with
  | some action =>
    { result with out := applied actions action result.out result.out.utf8ByteSize none }
  | none => result

end Filter

end LongestMatch
