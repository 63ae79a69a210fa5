import LongestMatch.Dfa.Match

/-!
# The scratch space of matches

A `Recorder` is where a match records the states that it passes through and the offsets at which it
does, and where it leaves its spans. One recorder serves many matches, one after another, so each of
them has to begin by resetting it: `Dfa.matchRecording` is `Dfa.matchLimited` with a recorder that
comes with whatever the match before has left in it.
-/

namespace LongestMatch

/-- What a match records. -/
structure Recorder where
  states : Array Nat := #[]
  /-- The offset in the output at which each of the states was reached. -/
  offsets : Array Nat := #[]
  /-- The spans that are open during an analysis. -/
  opened : List OpenSpan := []
  /-- The spans of the latest match. -/
  spans : List Span := []

namespace Recorder

/-- Forgets everything. -/
def reset (r : Recorder) : Recorder :=
  { r with states := #[], offsets := #[], opened := [], spans := [] }

/-- Records a state with the offset at which it is reached. -/
def record (r : Recorder) (state offset : Nat) : Recorder :=
  { r with states := r.states.push state, offsets := r.offsets.push offset }

/-- Reads the spans for an action off the first `count` records. -/
def analyze (r : Recorder) (dfa : Dfa) (action : ActionId) (count : Nat) : Recorder :=
  let r := { r with
    states := r.states.take count, offsets := r.offsets.take count, spans := [], opened := [] }
  if r.states.all fun state => (dfa.state state).marks.isEmpty then r
  else
    let way := dfa.markersMet action (r.states.toList.zip r.offsets.toList)
    { r with spans := r.spans ++ Span.ofTrail r.opened way, opened := [] }

end Recorder

namespace Dfa

/-- Records a state if any state has groups to report. -/
def record (dfa : Dfa) (r : Recorder) (state : Nat) (out : String) : Recorder :=
  if dfa.hasGroups then r.record state out.utf8ByteSize else r

/-- Reads on as `scan` does, appending what is read to the output and recording the states. -/
def scanRecording (dfa : Dfa) (state : Nat) (s : Scan) (out : String) (r : Recorder)
    (limit : Option Nat) (src : Source) : Stop × Scan × Source × Recorder :=
  if limit = some 0 then (.stuck, s, src, r)
  else
    match h : src.read with
    | (.failed reason, src') => (.failed reason, s, src', r)
    | (.done, src') => (.exhausted, s, src', r)
    | (.char c, src') =>
      match (dfa.state state).table.get c with
      | none => (.stuck, { s with read := c :: s.read }, src', r)
      | some next =>
        have : src'.remaining.length < src.remaining.length := by
          have := src.remaining_read
          rw [h] at this
          rw [this]
          exact Nat.lt_succ_self _
        dfa.scanRecording next (s.advance dfa c next) (out.push c)
          (dfa.record r next (out.push c)) (limit.map (· - 1)) src'
termination_by src.remaining.length
decreasing_by assumption

/-- Finds the longest match as `matchLimited` does, with a recorder. The spans of the match are
those that the recorder has in the end. -/
def matchRecording (dfa : Dfa) (limit : Option Nat) (src : Source) (out : String) (r : Recorder) :
    MatchStep × Recorder :=
  match dfa.scanRecording 0 dfa.scanStart out (dfa.record r.reset 0 out) limit src with
  | (.failed reason, s, src, r) => (⟨.error reason, s.read.reverse, src, r.spans⟩, r)
  | (.exhausted, { read := [], .. }, src, r) => (⟨.ok .endOfInput, [], src, r.spans⟩, r)
  | (_, s, src, r) =>
    let read := s.read.reverse
    match s.best with
    | none => (⟨.ok .noMatch, [], src.pushChars read, r.spans⟩, r)
    | some best =>
      let r := if dfa.hasGroups then r.analyze dfa best.action (best.length + 1) else r
      (⟨.ok (.matched best.action), read.take best.length, src.pushChars (read.drop best.length),
        r.spans⟩, r)

end Dfa

end LongestMatch
