import LongestMatch.Text.Offset

/-!
# Where characters come from

A `Source` yields characters one by one and takes characters back: what was pushed back is read
again, in its order, before anything new. Reading something new may fail; which of these reads fail
is fixed by a schedule, so that a source is a plain value.
-/

namespace LongestMatch

/-- A source of characters. -/
structure Source where
  /-- Characters pushed back, the next one first. -/
  pending : List Char := []
  /-- Characters not yet read. -/
  unread : List Char
  /-- How many reads have gone beyond the pending characters. -/
  reads : Nat := 0
  /-- The reason why such a read fails, given how many there were before it. -/
  fault : Nat → Option String := fun _ => none

namespace Source

/-- A source over a text that never fails. -/
def ofString (s : String) : Source :=
  { unread := s.toList }

/-- A source over a text that fails from a number of reads on. -/
def failingAfter (s : String) (count : Nat) (reason : String) : Source :=
  { unread := s.toList, fault := fun reads => if count ≤ reads then some reason else none }

/-- All that is still to be read, in the order of reading. -/
def remaining (src : Source) : List Char :=
  src.pending ++ src.unread

/-- The result of a read: a character, the end of the input, or the reason of a failure. -/
inductive Read where
  | char (c : Char)
  | done
  | failed (reason : String)

/-- Reads a character. The end of the input can be read any number of times. -/
def read (src : Source) : Read × Source :=
  match src.pending with
  | c :: rest => (.char c, { src with pending := rest })
  | [] =>
    let src' := { src with reads := src.reads + 1 }
    match src.fault src.reads with
    | some reason => (.failed reason, src')
    | none =>
      match src.unread with
      | c :: rest => (.char c, { src' with unread := rest })
      | [] => (.done, src')

/-- A character that was read is no longer to be read; else nothing is taken from what is. -/
theorem remaining_read (src : Source) :
    match src.read with
    | (.char c, src') => src.remaining = c :: src'.remaining
    | (_, src') => src'.remaining = src.remaining := by
  obtain ⟨pending, unread, reads, fault⟩ := src
  cases pending with
  | cons c rest => rfl
  | nil =>
    simp only [read]
    cases fault reads with
    | some reason => rfl
    | none => cases unread <;> rfl

/-- Takes characters back, to be read again before all others. -/
def pushChars (src : Source) (chars : List Char) : Source :=
  { src with pending := chars ++ src.pending }

/-- What was pushed back is read before all that was left. -/
theorem remaining_pushChars (src : Source) (chars : List Char) :
    (src.pushChars chars).remaining = chars ++ src.remaining := by
  simp [remaining, pushChars]

/-- Moves the end of a text, from a byte offset on, back into the source; none if the offset is not
sound. -/
def pushBack? (src : Source) (out : String) (start : Nat) : Option (String × Source) :=
  (Offset.cut? out start).map fun parts => (parts.1, src.pushChars parts.2.toList)

end Source

end LongestMatch
