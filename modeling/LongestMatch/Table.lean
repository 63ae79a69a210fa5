import LongestMatch.Config
import LongestMatch.Intervals

/-!
# Transition tables

A `Table` answers where a character leads. It is built from a sorted list of transitions without
overlap and takes one of five forms that trade memory for speed; the two general ones are `sparse`,
a binary search over the ranges, and `dense`, one slot per code point from the first to the last
covered one. Whatever the form, `get` finds the target of the entry that contains the character, and
`transitions` gives the list back.

`build` takes any target. `ofWords` is for targets that are 32-bit words, the greatest of which says
that there is none.
-/

namespace LongestMatch

/-- The transitions of one state, stored for lookup. -/
inductive Table where
  | empty
  | single (char : Char) (target : Nat)
  | range (transition : Transition)
  | sparse (entries : Array Transition)
  /-- The slot at position `i` is for the code point `first + i`. -/
  | dense (first : Nat) (slots : Array (Option Nat))
deriving Inhabited

namespace Table

/-! ## Building -/

/-- Writes `value` into `count` slots from position `i` on. -/
def fill (slots : Array (Option Nat)) (i : Nat) (value : Option Nat) : Nat → Array (Option Nat)
  | 0 => slots
  | count + 1 => fill (slots.setIfInBounds i value) (i + 1) value count

/-- One slot per code point, from `first` on, with the targets of `ts` filled in. -/
def slotsOf (first span : Nat) (ts : List Transition) : Array (Option Nat) :=
  ts.foldl
    (fun slots t =>
      fill slots (t.lo.toNat - first) (some t.target) (t.hi.toNat + 1 - t.lo.toNat))
    (Array.replicate span none)

/-- The form that `config` asks for. -/
def build (config : Config) : List Transition → Table
  | [] => empty
  | [t] => if t.lo = t.hi then single t.lo t.target else range t
  | t :: u :: rest =>
    let ts := t :: u :: rest
    let last := rest.getLastD u
    let first := t.lo.toNat
    let span := last.hi.toNat - first + 1
    if config.prefersDense span ts.length then dense first (slotsOf first span ts)
    else sparse ts.toArray

/-- The number that stands for no state where states are numbered by 32-bit words: the greatest. -/
def noState : Nat := 0xFFFFFFFF

/-- Empties the slots that lead to `target`. The forms without slots stay as they are. -/
def vacate (target : Nat) : Table → Table
  | dense first slots => dense first (slots.map fun slot => slot.filter (· ≠ target))
  | table => table

/--
The form that `config` asks for where states are numbered by 32-bit words. A slot of the dense form
is then a word as well, and a vacant one holds `noState`, so a transition to that number is lost
there. The other forms have no vacant places and keep it.
-/
def ofWords (config : Config) (ts : List Transition) : Table :=
  (build config ts).vacate noState

/-! ## Lookup -/

/-- Binary search among the entries at the positions from `lo` up to but not including `hi`. -/
def searchFrom (entries : Array Transition) (c : Char) (lo hi : Nat) : Option Nat :=
  if lo < hi then
    let middle := (lo + hi) / 2
    match entries[middle]? with
    | none => none
    | some t =>
      if t.hi < c then searchFrom entries c (middle + 1) hi
      else if c < t.lo then searchFrom entries c lo middle
      else some t.target
  else none
termination_by hi - lo

/-- Where `c` leads, if anywhere. -/
def get (table : Table) (c : Char) : Option Nat :=
  match table with
  | empty => none
  | single char target => if char = c then some target else none
  | range t => if t.contains c then some t.target else none
  | sparse entries => searchFrom entries c 0 entries.size
  | dense first slots =>
    if first ≤ c.toNat then slots.getD (c.toNat - first) none else none

/-! ## Reading a table back -/

/-- Adds the slot of a code point to the transitions read so far, the latest of which is first. -/
def readSlot (read : Nat × List Transition) (slot : Option Nat) : Nat × List Transition :=
  match read with
  | (code, done) =>
    match slot, scalar? code with
    | some target, some c => (code + 1, Transition.cons done ⟨CharRange.single c, target⟩)
    | _, _ => (code + 1, done)

/-- The table as a sorted list of transitions. -/
def transitions : Table → List Transition
  | empty => []
  | single char target => [⟨CharRange.single char, target⟩]
  | range t => [t]
  | sparse entries => entries.toList
  | dense first slots => (slots.foldl readSlot (first, [])).2.reverse

/-- The run of slots with `value` that begins at the code point `lo` and has come to `code`, where
the given slots follow, and the runs behind it. -/
def runsFrom (lo : Nat) (value : Option Nat) (code : Nat) : List (Option Nat) → List (Segment Nat)
  | [] => [⟨lo, code - 1, value⟩]
  | slot :: rest =>
    if slot = value then runsFrom lo value (code + 1) rest
    else ⟨lo, code - 1, value⟩ :: runsFrom code slot (code + 1) rest

/-- The longest runs of slots with the same value, the vacant ones included. -/
def runsOf (first : Nat) : List (Option Nat) → List (Segment Nat)
  | [] => []
  | slot :: rest => runsFrom first slot (first + 1) rest

/-- The table as a sorted list of transitions, with the slots of the dense form taken run by run. -/
def scan : Table → List Transition
  | dense first slots => Transition.join ((runsOf first slots.toList).filterMap Segment.transition?)
  | table => table.transitions

/-- Whether no character leads anywhere. -/
def isEmpty : Table → Bool
  | empty => true
  | _ => false

/-! ## Forms -/

/-- The forms a table can have. -/
inductive Form where
  | empty
  | single
  | range
  | sparse
  | dense
deriving DecidableEq

/-- The name of a form, as written in messages. -/
def Form.name : Form → String
  | empty => "empty"
  | single => "single"
  | range => "range"
  | sparse => "sparse"
  | dense => "dense"

/-- The form of a table. -/
def form : Table → Form
  | empty => .empty
  | single .. => .single
  | range .. => .range
  | sparse .. => .sparse
  | dense .. => .dense

end Table

end LongestMatch
