/-!
# Ranges of characters and transitions

A `CharRange` is a closed range of characters, a `Transition` such a range with the number of the
state it leads to. Characters are code points without the surrogates, so a range of code points has
to be clamped before it is one of characters (`CharRange.ofCodes?`), and the two characters next to
the surrogate gap count as neighbours (`areNeighbours`).

`Transition.join` brings a sorted list into its shortest form: neighbouring entries with the same
target become one.
-/

namespace LongestMatch

/-- The greatest code point. -/
def maxCode : Nat := 0x10FFFF

/-- The first code point of the surrogate gap. -/
def surrogateFirst : Nat := 0xD800

/-- The last code point of the surrogate gap. -/
def surrogateLast : Nat := 0xDFFF

/-- Whether no character has this code point because it is a surrogate. -/
def isSurrogate (code : Nat) : Bool :=
  surrogateFirst ≤ code && code ≤ surrogateLast

/-- The character with this code point. -/
def scalar? (code : Nat) : Option Char :=
  if code.isValidChar then some (Char.ofNat code) else none

/-- The characters from `lo` to `hi`, both included; none if `hi` comes before `lo`. -/
structure CharRange where
  lo : Char
  hi : Char
deriving DecidableEq, Inhabited

namespace CharRange

/-- Membership. -/
def contains (r : CharRange) (c : Char) : Bool :=
  r.lo ≤ c && c ≤ r.hi

/-- The range of one character. -/
def single (c : Char) : CharRange :=
  ⟨c, c⟩

/-- The characters among the code points from `lo` to `hi`, if there are any. A bound inside the
surrogate gap moves inwards to the nearest character. -/
def ofCodes? (lo hi : Nat) : Option CharRange :=
  let lo := if isSurrogate lo then surrogateLast + 1 else lo
  let hi := if isSurrogate hi then surrogateFirst - 1 else hi
  if lo ≤ hi then
    match scalar? lo, scalar? hi with
    | some lo, some hi => some ⟨lo, hi⟩
    | _, _ => none
  else none

end CharRange

/-- Whether no character lies strictly between `a` and the later character `b`. -/
def areNeighbours (a b : Char) : Bool :=
  a.toNat + 1 == b.toNat || (a.toNat + 1 == surrogateFirst && b.toNat == surrogateLast + 1)

/-- The characters of a range lead to the state `target`. -/
structure Transition extends CharRange where
  target : Nat
deriving DecidableEq, Inhabited

namespace Transition

/-- Adds a transition to a list that is kept with its latest entry in front. The entry grows instead
if the new one has its target and goes on where it ends. -/
def cons (done : List Transition) (t : Transition) : List Transition :=
  match done with
  | [] => [t]
  | last :: rest =>
    if last.target = t.target ∧ areNeighbours last.hi t.lo then ⟨⟨last.lo, t.hi⟩, t.target⟩ :: rest
    else t :: last :: rest

/-- The shortest list for the same map, for a list sorted by characters. -/
def join (ts : List Transition) : List Transition :=
  (ts.foldl cons []).reverse

/-- The same characters with the target renumbered. -/
def retarget (f : Nat → Nat) (t : Transition) : Transition :=
  { t with target := f t.target }

end Transition

end LongestMatch
