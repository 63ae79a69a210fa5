/-!
# Sets of state numbers

A `StateSet n` holds state numbers below `n` in the order in which they came in. Two arrays point at
each other: `dense` lists the members, `sparse` tells where in `dense` a number would lie. A number
is a member when the two agree, so clearing the set means resetting its size and nothing else; what
an earlier use left in the arrays never agrees by accident.

`saturate` closes such a set under a successor function with a stack of numbers still to expand.
Each number is pushed when it is first met, so the order of insertion is the order of discovery, and
the numbers not yet met bound the work.
-/

namespace LongestMatch

/-- A set of numbers below `n`, in order of insertion. -/
structure StateSet (n : Nat) where
  /-- The members, at the positions below `size`; what lies beyond is left over. -/
  dense : Vector Nat n
  /-- For each number the position in `dense` where it lies if it is a member. -/
  sparse : Vector Nat n
  /-- How many members there are. -/
  size : Nat
  size_le : size ≤ n

namespace StateSet

variable {n : Nat}

/-- The set without members. -/
def empty (n : Nat) : StateSet n :=
  ⟨Vector.replicate n 0, Vector.replicate n 0, 0, Nat.zero_le n⟩

/-- Forgets the members in constant time. -/
def clear (s : StateSet n) : StateSet n :=
  { s with size := 0, size_le := Nat.zero_le n }

/-- How many members came in before `id`, if `id` is a member. -/
def rank? (s : StateSet n) (id : Nat) : Option Nat :=
  if h : id < n then
    let position := s.sparse[id]
    if hp : position < s.size then
      have : position < n := Nat.lt_of_lt_of_le hp s.size_le
      if s.dense[position] = id then some position else none
    else none
  else none

/-- Membership. -/
def contains (s : StateSet n) (id : Nat) : Bool :=
  (s.rank? id).isSome

/-- Adds `id`, and tells whether it was missing. A number at or beyond `n` is not taken in. -/
def insert (s : StateSet n) (id : Nat) : StateSet n × Bool :=
  if s.contains id then (s, false)
  else if h : id < n ∧ s.size < n then
    (⟨s.dense.set s.size id h.2, s.sparse.set id s.size h.1, s.size + 1, h.2⟩, true)
  else (s, false)

/-- The members in order of insertion. -/
def toList (s : StateSet n) : List Nat :=
  s.dense.toList.take s.size

/-! ## Closing a set under successors -/

/-- Inserts `ids` one after another and puts those that were missing on top of `stack`. -/
def pushAll (seen : StateSet n) (stack : List Nat) : List Nat → StateSet n × List Nat
  | [] => (seen, stack)
  | id :: ids =>
    match seen.insert id with
    | (seen, true) => pushAll seen (id :: stack) ids
    | (seen, false) => pushAll seen stack ids

/-- An insertion either finds room and takes one place, or changes nothing. -/
theorem size_insert (s : StateSet n) (id : Nat) :
    ((s.insert id).2 = true ∧ s.size < n ∧ (s.insert id).1.size = s.size + 1) ∨
      ((s.insert id).2 = false ∧ (s.insert id).1 = s) := by
  unfold insert
  split
  · exact Or.inr ⟨rfl, rfl⟩
  · split
    · next h => exact Or.inl ⟨rfl, h.2, rfl⟩
    · exact Or.inr ⟨rfl, rfl⟩

/-- Every number pushed takes one of the free places: the sum of both never changes. -/
theorem budget_pushAll (seen : StateSet n) (stack ids : List Nat) :
    n - (seen.pushAll stack ids).1.size + (seen.pushAll stack ids).2.length =
      n - seen.size + stack.length := by
  induction ids generalizing seen stack with
  | nil => rfl
  | cons id ids ih =>
    rw [pushAll]
    rcases size_insert seen id with ⟨hnew, hroom, hsize⟩ | ⟨hold, hsame⟩
    · split
      · next seen' heq =>
        rw [heq] at hsize
        rw [ih, hsize, List.length_cons]
        omega
      · next seen' heq => rw [heq] at hnew; exact absurd hnew (by simp)
    · split
      · next seen' heq => rw [heq] at hold; exact absurd hold (by simp)
      · next seen' heq =>
        have hsame : seen' = seen := by rw [← hsame, heq]
        rw [ih, hsame]

/-- Expands the numbers on the stack, and those their expansion brings in, until none is left. -/
def saturate (next : Nat → List Nat) (seen : StateSet n) (stack : List Nat) : StateSet n :=
  match stack with
  | [] => seen
  | id :: rest =>
    let work := seen.pushAll rest (next id)
    saturate next work.1 work.2
termination_by n - seen.size + stack.length
decreasing_by
  have := budget_pushAll seen rest (next id)
  simp only [List.length_cons]
  omega

/-- The numbers that `roots` lead to along `next`, the roots included, in order of discovery. The
given set serves as storage only; its members are forgotten. -/
def reach (storage : StateSet n) (next : Nat → List Nat) (roots : List Nat) : StateSet n :=
  let work := storage.clear.pushAll [] roots
  saturate next work.1 work.2

end StateSet

end LongestMatch
