import Std.Data.HashMap

/-!
# Numbering by discovery

Things that lead to other things are numbered in the order in which they are met: the first one is
0, then come those it leads to, then those that number 1 leads to, and so on. `Numbering.explore`
does this for a function `next` whose results all come from some finite list. Each thing is expanded
once, in the order of the numbers, so the row of edges of a number is found at that position, and
the number of things not yet met bounds the work.

The numbers given so far are a `Roster`: a row of things and an index that finds a thing in it. That
the two agree is part of the type; so no thing has two numbers.
-/

namespace LongestMatch

/-! ## Rosters -/

/-- Things with their numbers. -/
structure Roster (α : Type) [DecidableEq α] [Hashable α] where
  /-- The number of each thing. -/
  index : Std.HashMap α Nat
  /-- The thing at each number. -/
  nodes : Array α
  index_eq_iff : ∀ (a : α) (id : Nat), index[a]? = some id ↔ nodes[id]? = some a

namespace Roster

variable {α β : Type} [DecidableEq α] [Hashable α]

/-- No thing has a number. -/
def empty : Roster α where
  index := Std.HashMap.emptyWithCapacity
  nodes := Array.empty
  index_eq_iff a id := by simp [Array.empty]

/-- How many numbers have been given. -/
def size (r : Roster α) : Nat :=
  r.nodes.size

/-- What the index does not find has no number. -/
theorem notMem_of_index_eq_none {r : Roster α} {a : α} (h : r.index[a]? = none) :
    a ∉ r.nodes := by
  intro hmem
  obtain ⟨id, hid, hget⟩ := Array.getElem_of_mem hmem
  have : r.index[a]? = some id := (r.index_eq_iff a id).2 (by simp [hid, hget])
  simp [h] at this

/-- Gives the next number to a thing that has none. -/
def push (r : Roster α) (a : α) (fresh : r.index[a]? = none) : Roster α where
  index := r.index.insert a r.nodes.size
  nodes := r.nodes.push a
  index_eq_iff b id := by
    have hfresh : a ∉ r.nodes := notMem_of_index_eq_none fresh
    rw [Std.HashMap.getElem?_insert, Array.getElem?_push]
    by_cases hab : a = b
    · subst hab
      by_cases hid : id = r.nodes.size
      · simp [hid]
      · have : r.nodes[id]? ≠ some a := fun h => hfresh (Array.mem_of_getElem? h)
        simp [hid, this, Ne.symm hid]
    · by_cases hid : id = r.nodes.size
      · have : r.index[b]? ≠ some r.nodes.size := fun h => by
          have := (r.index_eq_iff b _).1 h
          simp at this
        simp [hid, hab, this]
      · simp [hid, hab, r.index_eq_iff]

/-- The number of `a`, which is the next free one if `a` has none. -/
def intern (r : Roster α) (a : α) : Roster α × Nat :=
  match h : r.index[a]? with
  | some id => (r, id)
  | none =>
    let next := r.size
    (r.push a h, next)

/-- Numbers the ends of a list of edges, from left to right. -/
def internAll (r : Roster α) : List (β × α) → Roster α × List (β × Nat)
  | [] => (r, [])
  | (label, a) :: rest =>
    let (r, id) := r.intern a
    let (r, edges) := internAll r rest
    (r, (label, id) :: edges)

/-! ## Why numbering ends -/

/-- How many of `all` have no number. -/
def missing (all : List α) (r : Roster α) : Nat :=
  all.countP fun a => a ∉ r.nodes

/-- A number given to one of `all` leaves fewer without one. -/
theorem missing_push_lt {all : List α} {r : Roster α} {a : α} (known : a ∈ all)
    (fresh : r.index[a]? = none) : missing all (r.push a fresh) < missing all r := by
  have fewer : ∀ rest : List α, missing rest (r.push a fresh) ≤ missing rest r := fun rest =>
    List.countP_mono_left fun c _ hc => by
      simp only [push, Array.mem_push, not_or, decide_eq_true_eq] at hc ⊢
      exact hc.1
  obtain ⟨before, after, rfl⟩ := List.append_of_mem known
  have left := fewer before
  have right := fewer after
  have numbered : decide (a ∉ (r.push a fresh).nodes) = false := by simp [push]
  have unnumbered : decide (a ∉ r.nodes) = true := by simp [notMem_of_index_eq_none fresh]
  simp only [missing, List.countP_append, List.countP_cons, numbered, unnumbered, if_true,
    Bool.false_eq_true, if_false] at left right ⊢
  omega

/-- Giving a number never adds to what is numbered and what is missing taken together. -/
theorem budget_intern {all : List α} {a : α} (known : a ∈ all) (r : Roster α) :
    missing all (r.intern a).1 + (r.intern a).1.size ≤ missing all r + r.size := by
  unfold intern
  split
  · exact Nat.le_refl _
  · next fresh =>
    have := missing_push_lt known fresh
    simp only [size, push, Array.size_push] at *
    omega

/-- The same for a list of edges. -/
theorem budget_internAll {all : List α} {list : List (β × α)} (known : ∀ e ∈ list, e.2 ∈ all)
    (r : Roster α) :
    missing all (r.internAll list).1 + (r.internAll list).1.size ≤ missing all r + r.size := by
  induction list generalizing r with
  | nil => exact Nat.le_refl _
  | cons e rest ih =>
    have head := budget_intern (known e (List.mem_cons_self ..)) r
    have tail := ih (fun e' h => known e' (List.mem_cons_of_mem _ h)) (r.intern e.2).1
    simp only [internAll]
    omega

end Roster

/-! ## Exploration -/

/-- Things with their numbers, and the edges of those that have been expanded. -/
structure Numbering (α β : Type) [DecidableEq α] [Hashable α] where
  roster : Roster α
  /-- For each expanded number its edges: a label and the number it leads to. -/
  edges : Array (List (β × Nat))

namespace Numbering

variable {α β : Type} [DecidableEq α] [Hashable α]

/-- The thing at each number. -/
def nodes (found : Numbering α β) : Array α :=
  found.roster.nodes

/-- Expands the numbers that have no edges yet, one after another, until none is left. -/
def explore (next : α → List (β × α)) (finite : ∃ all : List α, ∀ a, ∀ e ∈ next a, e.2 ∈ all)
    (found : Numbering α β) : Numbering α β :=
  if h : found.edges.size < found.roster.nodes.size then
    let met := found.roster.internAll (next found.roster.nodes[found.edges.size])
    explore next finite ⟨met.1, found.edges.push met.2⟩
  else found
termination_by found.roster.missing finite.choose + found.roster.size - found.edges.size
decreasing_by
  have := Roster.budget_internAll (finite.choose_spec found.roster.nodes[found.edges.size])
    found.roster
  simp only [Array.size_push, Roster.size] at *
  omega

/-- The numbering that starts with `a`. -/
def start (a : α) : Numbering α β :=
  ⟨(Roster.empty.intern a).1, Array.empty⟩

end Numbering

end LongestMatch
