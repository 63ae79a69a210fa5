import LongestMatch.Subset.Numbering
import Mathlib.Data.List.Forall2
import Mathlib.Logic.Relation

/-!
# Numbering by discovery is complete and exact

`Numbering.Sound next root found` says what exploration keeps true: number 0 is the root, each row
of edges is the row of `next` with numbers in the place of things, and only things that the root
leads to have numbers. `sound_explore` adds that in the end every number has its row.
-/

namespace LongestMatch

variable {α β : Type} [DecidableEq α] [Hashable α]

namespace Roster

/-- Numbers once given stay. -/
def Extends (r r' : Roster α) : Prop :=
  ∀ (i : Nat) (a : α), r.nodes[i]? = some a → r'.nodes[i]? = some a

theorem Extends.refl (r : Roster α) : r.Extends r :=
  fun _ _ h => h

theorem Extends.trans {r r' r'' : Roster α} (h : r.Extends r') (h' : r'.Extends r'') :
    r.Extends r'' :=
  fun i a hi => h' i a (h i a hi)

theorem Extends.size_le {r r' : Roster α} (h : r.Extends r') : r.nodes.size ≤ r'.nodes.size := by
  by_contra hlt
  have hlt : r'.nodes.size < r.nodes.size := Nat.not_le.1 hlt
  have := h _ _ (Array.getElem?_eq_getElem hlt)
  simp at this

theorem extends_push (r : Roster α) (a : α) (fresh : r.index[a]? = none) :
    r.Extends (r.push a fresh) := by
  intro i b hi
  obtain ⟨hlt, -⟩ := Array.getElem?_eq_some_iff.1 hi
  rw [push, Array.getElem?_push_lt hlt, ← Array.getElem?_eq_getElem hlt, hi]

theorem extends_intern (r : Roster α) (a : α) : r.Extends (r.intern a).1 := by
  unfold intern
  split
  · exact Extends.refl r
  · next fresh => exact extends_push r a fresh

/-- The number that a thing is given is its own. -/
theorem getElem?_intern (r : Roster α) (a : α) :
    (r.intern a).1.nodes[(r.intern a).2]? = some a := by
  unfold intern
  split
  · next id h => exact (r.index_eq_iff a id).1 h
  · simp [push, size]

/-- Only the thing itself may be new. -/
theorem mem_intern {r : Roster α} {a b : α} {i : Nat} (h : (r.intern a).1.nodes[i]? = some b) :
    r.nodes[i]? = some b ∨ b = a := by
  unfold intern at h
  split at h
  · exact .inl h
  · rw [push, Array.getElem?_push] at h
    split at h
    · exact .inr (Option.some.inj h).symm
    · exact .inl h

theorem extends_internAll (r : Roster α) (list : List (β × α)) :
    r.Extends (r.internAll list).1 := by
  induction list generalizing r with
  | nil => exact Extends.refl r
  | cons e rest ih => exact (extends_intern r e.2).trans (ih _)

/-- Labels are kept, and the numbers are those of the things. -/
theorem forall₂_internAll (r : Roster α) (list : List (β × α)) :
    List.Forall₂ (fun e f => e.1 = f.1 ∧ (r.internAll list).1.nodes[e.2]? = some f.2)
      (r.internAll list).2 list := by
  induction list generalizing r with
  | nil => exact .nil
  | cons e rest ih =>
    refine .cons ⟨rfl, ?_⟩ (ih _)
    exact extends_internAll _ rest _ _ (getElem?_intern r e.2)

theorem mem_internAll {r : Roster α} {list : List (β × α)} {i : Nat} {b : α}
    (h : (r.internAll list).1.nodes[i]? = some b) :
    r.nodes[i]? = some b ∨ ∃ e ∈ list, e.2 = b := by
  induction list generalizing r with
  | nil => exact .inl h
  | cons e rest ih =>
    rcases ih h with hold | ⟨e', he', rfl⟩
    · rcases mem_intern hold with hold | rfl
      · exact .inl hold
      · exact .inr ⟨e, List.mem_cons_self .., rfl⟩
    · exact .inr ⟨e', List.mem_cons_of_mem _ he', rfl⟩

/-- No thing has two numbers. -/
theorem number_unique (r : Roster α) {i j : Nat} {a : α} (hi : r.nodes[i]? = some a)
    (hj : r.nodes[j]? = some a) : i = j := by
  have hi' := (r.index_eq_iff a i).2 hi
  have hj' := (r.index_eq_iff a j).2 hj
  rw [hi'] at hj'
  exact Option.some.inj hj'

end Roster

namespace Numbering

/-- Some edge leads from `a` to `b`. -/
def Next (next : α → List (β × α)) (a b : α) : Prop :=
  ∃ e ∈ next a, e.2 = b

/-- A row of edges says the same as `next` does of `a`, with numbers in the place of things. -/
def RowOf (next : α → List (β × α)) (nodes : Array α) (a : α) (row : List (β × Nat)) : Prop :=
  List.Forall₂ (fun e f => e.1 = f.1 ∧ nodes[e.2]? = some f.2) row (next a)

omit [DecidableEq α] [Hashable α] in
theorem RowOf.labels {next : α → List (β × α)} {nodes : Array α} {a : α} {row : List (β × Nat)}
    (h : RowOf next nodes a row) : row.map Prod.fst = (next a).map Prod.fst := by
  unfold RowOf at h
  generalize next a = list at h ⊢
  induction h with
  | nil => rfl
  | cons he _ ih => rw [List.map_cons, List.map_cons, ih, he.1]

omit [DecidableEq α] [Hashable α] in
/-- Whatever `next` yields has a number. -/
theorem RowOf.exists_number {next : α → List (β × α)} {nodes : Array α} {a : α}
    {row : List (β × Nat)} (h : RowOf next nodes a row) {e : β × α} (he : e ∈ next a) :
    ∃ j : Nat, nodes[j]? = some e.2 := by
  unfold RowOf at h
  generalize next a = list at h he
  induction h with
  | nil => cases he
  | cons hf _ ih =>
    rcases List.mem_cons.1 he with rfl | he
    · exact ⟨_, hf.2⟩
    · exact ih he

/-- What exploration from `root` keeps true. -/
structure Sound (next : α → List (β × α)) (root : α) (found : Numbering α β) : Prop where
  root_eq : found.nodes[0]? = some root
  size_le : found.edges.size ≤ found.nodes.size
  row : ∀ (i : Nat) (row : List (β × Nat)), found.edges[i]? = some row →
    ∃ a, found.nodes[i]? = some a ∧ RowOf next found.nodes a row
  reachable : ∀ (i : Nat) (a : α), found.nodes[i]? = some a →
    Relation.ReflTransGen (Next next) root a

variable {next : α → List (β × α)} {root : α}

/-- An edge of a row is one to a thing that `next` yields, under the same label. -/
theorem RowOf.mem_iff {r : Roster α} {a : α} {row : List (β × Nat)} (h : RowOf next r.nodes a row)
    {label : β} {j : Nat} :
    (label, j) ∈ row ↔ ∃ b, r.nodes[j]? = some b ∧ (label, b) ∈ next a := by
  unfold RowOf at h
  generalize next a = list at h
  induction h with
  | nil => simp
  | @cons e f row list he _ ih =>
    obtain ⟨l, i⟩ := e
    obtain ⟨l', b⟩ := f
    obtain ⟨rfl, hi⟩ := he
    rw [List.mem_cons, ih]
    constructor
    · intro hcases
      rcases hcases with heq | ⟨b', hj, hmem⟩
      · obtain ⟨rfl, rfl⟩ := Prod.mk.injEq .. ▸ heq
        exact ⟨b, hi, List.mem_cons_self ..⟩
      · exact ⟨b', hj, List.mem_cons_of_mem _ hmem⟩
    · intro h'
      obtain ⟨b', hj, hmem⟩ := h'
      rcases List.mem_cons.1 hmem with heq | hmem
      · obtain ⟨rfl, rfl⟩ := Prod.mk.injEq .. ▸ heq
        left
        rw [r.number_unique hj hi]
      · exact .inr ⟨b', hj, hmem⟩

theorem sound_start : Sound next root (start root) := by
  have hroot : (start root : Numbering α β).nodes = #[root] := by
    rw [start, nodes, Roster.intern]
    split
    · next h => simp [Roster.empty] at h
    · rfl
  refine ⟨by simp [hroot], Nat.zero_le _, fun i row h => by simp [start, Array.empty] at h, ?_⟩
  intro i a h
  rw [hroot] at h
  obtain rfl : a = root := by simpa using Array.mem_of_getElem? h
  exact .refl

/-- Expanding one more number keeps a numbering sound. -/
theorem Sound.expand {found : Numbering α β} (h : Sound next root found)
    (hlt : found.edges.size < found.roster.nodes.size) :
    let met := found.roster.internAll (next found.roster.nodes[found.edges.size])
    Sound next root ⟨met.1, found.edges.push met.2⟩ := by
  intro met
  have hext : found.roster.Extends met.1 := Roster.extends_internAll _ _
  have hnode : found.nodes[found.edges.size]? = some found.roster.nodes[found.edges.size] :=
    Array.getElem?_eq_getElem hlt
  refine ⟨hext _ _ h.root_eq, ?_, ?_, ?_⟩
  · have := hext.size_le
    simp only [Array.size_push, nodes]
    omega
  · -- the new row is the last one, and the old ones stay right since numbers do
    intro i row hrow
    simp only [Array.getElem?_push] at hrow
    split at hrow
    · next heq =>
      subst heq
      obtain rfl := Option.some.inj hrow
      exact ⟨_, hext _ _ hnode, Roster.forall₂_internAll _ _⟩
    · obtain ⟨a, ha, hrow⟩ := h.row i row hrow
      exact ⟨a, hext _ _ ha, hrow.imp fun e f hef => ⟨hef.1, hext _ _ hef.2⟩⟩
  · intro i b hb
    rcases Roster.mem_internAll hb with hold | ⟨e, he, rfl⟩
    · exact h.reachable i b hold
    · exact (h.reachable _ _ hnode).tail ⟨e, he, rfl⟩

/-- In the end every number has its row of edges. -/
theorem sound_explore {finite : ∃ all : List α, ∀ a, ∀ e ∈ next a, e.2 ∈ all}
    {found : Numbering α β} (h : Sound next root found) :
    Sound next root (explore next finite found) ∧
      (explore next finite found).edges.size = (explore next finite found).nodes.size := by
  fun_induction explore next finite found with
  | case1 found hlt met ih => exact ih (h.expand hlt)
  | case2 found hge =>
    -- no number is without a row, and there is no row without a number
    have := h.size_le
    simp only [nodes] at this ⊢
    exact ⟨h, by omega⟩

end Numbering

end LongestMatch
