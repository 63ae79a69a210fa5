import LongestMatch.Dfa.Basic
import LongestMatch.Group.Span
import LongestMatch.Source

/-!
# Longest match

Matching reads characters while the automaton can go on, remembers the last state with an action,
and gives back to the source all that was read beyond it. `Scan` holds what has been read so far,
`Dfa.scan` is the loop, and `Dfa.matchLimited` draws the conclusion. Nothing is lost on the way:
whatever comes of a match, what it adds to the output and what is left in the source are together
what the source held before (`added_matchLimited`).
-/

namespace LongestMatch

/-- The end of a match. -/
structure MatchEnd where
  action : ActionId
  /-- The number of characters up to here. -/
  length : Nat
deriving DecidableEq

/-- Why reading ended. -/
inductive Stop where
  /-- The limit was reached, or the last character read leads nowhere. -/
  | stuck
  /-- The source is exhausted. -/
  | exhausted
  | failed (reason : String)

/-- What has been read of a match. -/
structure Scan where
  /-- The characters read, the latest one first. -/
  read : List Char := []
  /-- How many characters have led from state to state. -/
  length : Nat := 0
  /-- The states passed through, the latest one first. -/
  states : List Nat
  /-- The longest match so far. -/
  best : Option MatchEnd

/-- Goes on to a state by a character. -/
def Scan.advance (dfa : Dfa) (s : Scan) (c : Char) (next : Nat) : Scan where
  read := c :: s.read
  length := s.length + 1
  states := next :: s.states
  best :=
    match (dfa.state next).action with
    | some action => some ⟨action, s.length + 1⟩
    | none => s.best

/-- The outcome of a match. -/
inductive Outcome where
  | matched (action : ActionId)
  /-- No beginning of the input is matched. -/
  | noMatch
  /-- There was no input left. -/
  | endOfInput
deriving DecidableEq

/-- What a match leaves behind. -/
structure MatchStep where
  /-- The outcome, or the reason why a read failed. -/
  result : Except String Outcome
  /-- The characters that are added to the output: those of the match, or all that were read before
  a failure. -/
  added : List Char
  source : Source
  /-- The spans of the reporting groups, by byte offsets into the output. -/
  spans : List Span

/-- The output after a match. -/
def MatchStep.extend (step : MatchStep) (out : String) : String :=
  out ++ String.ofList step.added

/-- The action of the match, if there is one. -/
def MatchStep.action? (step : MatchStep) : Option ActionId :=
  match step.result with
  | .ok (.matched action) => some action
  | _ => none

namespace Dfa

/-- Before anything is read. -/
def scanStart (dfa : Dfa) : Scan where
  states := [0]
  best := (dfa.state 0).action.map fun action => ⟨action, 0⟩

/-- Reads on from a state while the automaton can go on, at most `limit` characters if there is a
limit. A character that leads nowhere has been read when that is found out. -/
def scan (dfa : Dfa) (state : Nat) (s : Scan) (limit : Option Nat) (src : Source) :
    Stop × Scan × Source :=
  if limit = some 0 then (.stuck, s, src)
  else
    match h : src.read with
    | (.failed reason, src') => (.failed reason, s, src')
    | (.done, src') => (.exhausted, s, src')
    | (.char c, src') =>
      match (dfa.state state).table.get c with
      | none => (.stuck, { s with read := c :: s.read }, src')
      | some next =>
        have : src'.remaining.length < src.remaining.length := by
          have := src.remaining_read
          rw [h] at this
          rw [this]
          exact Nat.lt_succ_self _
        dfa.scan next (s.advance dfa c next) (limit.map (· - 1)) src'
termination_by src.remaining.length
decreasing_by assumption

/-- Reading loses nothing: what has been read and what is still to be read make up the same text
throughout. -/
theorem remaining_scan (dfa : Dfa) (state : Nat) (s : Scan) (limit : Option Nat) (src : Source) :
    (dfa.scan state s limit src).2.1.read.reverse ++ (dfa.scan state s limit src).2.2.remaining =
      s.read.reverse ++ src.remaining := by
  fun_induction dfa.scan state s limit src with
  | case1 => rfl
  | case2 state s limit src _ reason src' h =>
    have := src.remaining_read
    rw [h] at this
    simp only [this]
  | case3 state s limit src _ src' h =>
    have := src.remaining_read
    rw [h] at this
    simp only [this]
  | case4 state s limit src _ c src' h =>
    have := src.remaining_read
    rw [h] at this
    simp [this]
  | case5 state s limit src _ c src' h next _ _ ih =>
    have := src.remaining_read
    rw [h] at this
    rw [ih]
    simp [Scan.advance, this]

/-- The byte offsets at which characters begin and end, for a text that begins at `start`. -/
def offsets (start : Nat) : List Char → List Nat
  | [] => [start]
  | c :: rest => start :: offsets (start + c.utf8Size) rest

/-- What is met at the positions of a way: the offset of each, and the markers that its state has
for an action. -/
def markersMet (dfa : Dfa) (action : ActionId) (positions : List (Nat × Nat)) :
    List (Nat × List Marker) :=
  positions.map fun p => (p.2, dfa.markersFor p.1 action)

/-- The spans for an action, from the first `count` of the positions that were recorded, each a
state with the offset at which it was reached. If none of these states has markers there is nothing
to be read off. -/
def analyze (dfa : Dfa) (action : ActionId) (positions : List (Nat × Nat)) (count : Nat) :
    List Span :=
  let kept := positions.take count
  if kept.all fun p => (dfa.state p.1).marks.isEmpty then []
  else Span.ofTrail [] (dfa.markersMet action kept)

/-- The spans of a match of `length` characters that begins at a byte offset, when the characters
`read` have been read and have led through `states`. -/
def spansOf (dfa : Dfa) (action : ActionId) (start : Nat) (read : List Char) (states : List Nat)
    (length : Nat) : List Span :=
  if dfa.hasGroups then dfa.analyze action (states.zip (offsets start read)) (length + 1) else []

/-- Finds the longest match at the beginning of what the source yields, among those of at most
`limit` characters if there is a limit. What was read beyond the match is pushed back, unless a read
fails: then everything read so far is added to the output. Of `out`, the output so far, only the
length counts, as the offset at which the spans begin. -/
def matchLimited (dfa : Dfa) (limit : Option Nat) (src : Source) (out : String) : MatchStep :=
  match dfa.scan 0 dfa.scanStart limit src with
  | (.failed reason, s, src) => ⟨.error reason, s.read.reverse, src, []⟩
  | (.exhausted, { read := [], .. }, src) => ⟨.ok .endOfInput, [], src, []⟩
  | (_, s, src) =>
    let read := s.read.reverse
    match s.best with
    | none => ⟨.ok .noMatch, [], src.pushChars read, []⟩
    | some best =>
      ⟨.ok (.matched best.action), read.take best.length, src.pushChars (read.drop best.length),
        dfa.spansOf best.action out.utf8ByteSize read s.states.reverse best.length⟩

/-- A match takes from the source exactly the characters that it adds to the output, whatever comes
of it. -/
theorem added_matchLimited (dfa : Dfa) (limit : Option Nat) (src : Source) (out : String) :
    (dfa.matchLimited limit src out).added ++ (dfa.matchLimited limit src out).source.remaining =
      src.remaining := by
  have kept : (dfa.scan 0 dfa.scanStart limit src).2.1.read.reverse ++
      (dfa.scan 0 dfa.scanStart limit src).2.2.remaining = src.remaining :=
    dfa.remaining_scan 0 dfa.scanStart limit src
  unfold matchLimited
  split
  · next h => rw [h] at kept; exact kept
  · next h => rw [h] at kept; exact kept
  · next h =>
    rw [h] at kept
    rw [← kept]
    simp only
    split
    · simp [Source.remaining_pushChars]
    · simp [Source.remaining_pushChars, ← List.append_assoc]

/-- Finds the longest match at the beginning of what the source yields. -/
def matchNext (dfa : Dfa) (src : Source) (out : String) : MatchStep :=
  dfa.matchLimited none src out

/-- The longest match at the beginning of a text: its action and its length in bytes. -/
def find? (dfa : Dfa) (text : String) : Option (ActionId × Nat) :=
  if text.isEmpty then (dfa.state 0).action.map fun action => (action, 0)
  else
    let step := dfa.matchNext (Source.ofString text) ""
    match step.result with
    | .ok (.matched action) => some (action, (step.extend "").utf8ByteSize)
    | _ => none

/-- The action of a text that is matched as a whole. -/
def matchWhole? (dfa : Dfa) (text : String) : Option ActionId :=
  match dfa.find? text with
  | some (action, length) => if length = text.utf8ByteSize then some action else none
  | none => none

end Dfa

end LongestMatch
