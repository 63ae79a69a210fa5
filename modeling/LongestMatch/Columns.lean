import LongestMatch.Intervals

/-!
# Partitions as they are stored

`Columns α` stores the runs of a partition in two columns, one of the first code points and one of
the values, and finds its way in them by indices. A write from `lo` to `hi` makes both ends of the
range starts of runs, one after the other, and visits the values between the two indices that this
gives.

Every access by an index is checked here: it gives `none` where the index is out of range, and so
does an operation that depends on it.
-/

namespace LongestMatch

/-- The greatest bound that a range can be given. -/
def maxBound : Nat := 0xFFFFFFFF

/-- The bound behind `hi`; the greatest one has none and stays. -/
def behind (hi : Nat) : Nat :=
  min (hi + 1) maxBound

/-- The number before; none before zero. -/
def before? : Nat → Option Nat
  | 0 => none
  | n + 1 => some n

/-- Inserts `a` at an index, which may be the one behind the last. -/
def insertAt? {β : Type} (pos : Nat) (a : β) (l : List β) : Option (List β) :=
  if pos ≤ l.length then some (l.insertIdx pos a) else none

/-- Looks for a code point in a column of ascending starts. Gives its index or, as an error, the
index at which it would have to be inserted. -/
def search (starts : List Nat) (code : Nat) : Except Nat Nat :=
  let pos := (starts.takeWhile (· < code)).length
  if starts[pos]? = some code then .ok pos else .error pos

/-- The runs of a partition: their first code points, ascending from 0, and their values. -/
structure Columns (α : Type) where
  starts : List Nat
  values : List (Option α)

namespace Columns

variable {α : Type}

/-- One unset run. -/
def unset : Columns α :=
  ⟨[0], [none]⟩

/-- The number of runs. -/
def length (cols : Columns α) : Nat :=
  cols.starts.length

/-- Whether no run carries a value. -/
def isUnset (cols : Columns α) : Bool :=
  cols.values.all Option.isNone

/-- Makes `code` the start of a run and gives the index of that run. There is none with such a start
beyond the code points: the index is then the one behind the last run. -/
def split (cols : Columns α) (code : Nat) : Option (Nat × Columns α) :=
  if code ≤ maxCode then
    match search cols.starts code with
    | .ok pos => some (pos, cols)
    | .error pos => do
      let value ← cols.values[← before? pos]?
      return (pos, ⟨← insertAt? pos code cols.starts, ← insertAt? pos value cols.values⟩)
  else some (cols.starts.length, cols)

/-- Splits at both ends of the range from `lo` to `hi`. The runs within it are those from the first
index up to the second one. -/
def isolate (cols : Columns α) (lo hi : Nat) : Option (Nat × Nat × Columns α) := do
  let (first, cols) ← cols.split lo
  let (stop, cols) ← cols.split (behind hi)
  if first ≤ stop ∧ stop ≤ cols.values.length then return (first, stop, cols) else none

/-- Visits the values from index `first` up to index `stop`, in order, with `f`. -/
def visit {m : Type → Type} [Monad m] (cols : Columns α) (first stop : Nat)
    (f : Option α → m (Option α)) : m (Columns α) := do
  let changed ← ((cols.values.take stop).drop first).mapM f
  return { cols with values := cols.values.take first ++ changed ++ cols.values.drop stop }

/-- Visits the value of every run within the range from `lo` to `hi` with `f`, whose effects are
those of `m`. -/
def update {m : Type → Type} [Monad m] (cols : Columns α) (lo hi : Nat)
    (f : Option α → m (Option α)) : Option (m (Columns α)) :=
  if lo ≤ hi then do
    let (first, stop, cols) ← cols.isolate lo hi
    return cols.visit first stop f
  else some (pure cols)

/-- Gives the code points from `lo` to `hi` the value `a`. -/
def overwrite (cols : Columns α) (lo hi : Nat) (a : α) : Option (Columns α) :=
  Id.run <$> cols.update lo hi fun _ => pure (some a)

/-- Gives the value `a` to everything that is unset. -/
def fillUnset (cols : Columns α) (a : α) : Columns α :=
  { cols with values := cols.values.map fun v => some (v.getD a) }

/-- The value of a code point. -/
def get (cols : Columns α) (code : Nat) : Option (Option α) :=
  match search cols.starts code with
  | .ok pos => cols.values[pos]?
  | .error pos => do cols.values[← before? pos]?

/-- The run with index `i`. It ends before the next one, the last run with the code points. -/
def segment? (cols : Columns α) (i : Nat) : Option (Segment α) := do
  let hi ← (cols.starts[i + 1]?).elim (some maxCode) before?
  return ⟨← cols.starts[i]?, hi, ← cols.values[i]?⟩

/-- The runs with both bounds, unset ones included. -/
def segments (cols : Columns α) : Option (List (Segment α)) :=
  (List.range cols.starts.length).mapM cols.segment?

/-! ## Partitions by target state -/

/-- The transitions of a partition, sorted and with neighbours joined. -/
def toTransitions (cols : Columns Nat) : Option (List Transition) := do
  return Transition.join ((← cols.segments).filterMap Segment.transition?)

/-- The partition that a list of transitions describes, later entries over earlier ones. -/
def ofTransitions (ts : List Transition) : Option (Columns Nat) :=
  ts.foldlM (fun cols t => cols.overwrite t.lo.toNat t.hi.toNat t.target) unset

end Columns

end LongestMatch
