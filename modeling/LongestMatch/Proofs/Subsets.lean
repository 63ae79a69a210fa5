import LongestMatch.Proofs.Discovery
import LongestMatch.Proofs.Partition
import LongestMatch.Proofs.Reach
import LongestMatch.Proofs.ReadBack
import LongestMatch.Proofs.Trails
import LongestMatch.Subset.Exploration

/-!
# Where texts lead in the subset construction

A text leads the deterministic graph to the set of kept states that it leads the automaton to
(`node_of_trail`), or nowhere if there are none (`exists_trail`). The layers, from the inside out:

* `mem_closure` — a closure holds the kept states at the end of silent edges.
* `mem_targetsAt` — the partition of a set gives for each character the targets of its edges.
* `mem_successors` — the successors by a character are the closure of its targets, if not empty.
* `closureOf_keptAt` — from the kept states of a text, the next character leads to those of the
  longer text; dropping the other states loses nothing. So they can be found one character after
  another (`walk`).
* `map_rowOf` — reading the tables of the graph back gives its rows, whatever form they have.
-/

namespace LongestMatch

namespace Nfa

variable {nfa : Nfa} {accept : Option Nat}

/-! ## Closures -/

theorem trail_nil_iff_link {p q : Nat} (hq : q < nfa.states.size) :
    Trail nfa.Edge p [] q ↔ p < nfa.states.size ∧
      Relation.ReflTransGen (StateSet.Link nfa.states.size fun id => (nfa.state id).eps) p q := by
  rw [trail_nil_iff]
  constructor
  · intro h
    induction h using Relation.ReflTransGen.head_induction_on with
    | refl => exact ⟨hq, .refl⟩
    | head e _ ih => exact ⟨Edge.lt_size e, .head ⟨e, ih.1⟩ ih.2⟩
  · intro h'
    obtain ⟨-, h⟩ := h'
    exact Relation.ReflTransGen.mono (fun _ _ link => link.1) _ _ h

theorem mem_closure {storage : StateSet nfa.states.size} {seeds : List Nat} {q : Nat} :
    q ∈ (nfa.closure accept storage seeds).1 ↔
      q < nfa.states.size ∧ nfa.isKept accept q = true ∧ ∃ p ∈ seeds, Trail nfa.Edge p [] q := by
  simp only [closure, List.mem_filter, List.mem_range, Bool.and_eq_true, StateSet.contains_reach]
  constructor
  · intro h'
    obtain ⟨hlt, ⟨p, hp, hlink⟩, hkept⟩ := h'
    exact ⟨hlt, hkept, p, hp, (trail_nil_iff_link hlt).2 hlink⟩
  · intro h'
    obtain ⟨hlt, hkept, p, hp, h⟩ := h'
    exact ⟨hlt, ⟨p, hp, (trail_nil_iff_link hlt).1 h⟩, hkept⟩

/-- The closure that does not mention the storage, which has no influence on it. -/
def closureOf (nfa : Nfa) (accept : Option Nat) (seeds : List Nat) : List Nat :=
  (nfa.closure accept (StateSet.empty nfa.states.size) seeds).1

theorem closure_fst (storage : StateSet nfa.states.size) (seeds : List Nat) :
    (nfa.closure accept storage seeds).1 = nfa.closureOf accept seeds := by
  apply List.filter_congr
  intro q _
  rw [Bool.eq_iff_iff]
  simp only [Bool.and_eq_true, StateSet.contains_reach]

theorem mem_closureOf {seeds : List Nat} {q : Nat} :
    q ∈ nfa.closureOf accept seeds ↔
      q < nfa.states.size ∧ nfa.isKept accept q = true ∧ ∃ p ∈ seeds, Trail nfa.Edge p [] q :=
  mem_closure

/-- Closures with the same members are equal. -/
theorem closureOf_eq_filter {seeds : List Nat} {p : Nat → Bool}
    (h : ∀ q < nfa.states.size, q ∈ nfa.closureOf accept seeds ↔ p q = true) :
    nfa.closureOf accept seeds = (List.range nfa.states.size).filter p := by
  apply List.filter_congr
  intro q hq
  have hlt : q < nfa.states.size := List.mem_range.1 hq
  rw [Bool.eq_iff_iff, ← h q hlt, closureOf, closure, List.mem_filter]
  simp [hlt]

/-! ## Targets of a set -/

/-- The targets of the edges that read a character from a set. -/
def targetsAt (nfa : Nfa) (set : List Nat) (c : Char) : List Nat :=
  ((nfa.targetsOf set).get c.toNat).getD []

theorem mem_addTarget {target q : Nat} {known : Option (List Nat)} :
    q ∈ (addTarget target known).getD [] ↔ q = target ∨ q ∈ known.getD [] := by
  simp only [addTarget, Option.getD_some]
  split
  · next h =>
    constructor
    · exact .inr
    · intro h'
      rcases h' with rfl | hq
      · exact h
      · exact hq
  · simp [or_comm]

/-- A partition that holds, for each character, the targets that a relation has for it. -/
structure Holds (iv : Intervals (List Nat)) (leads : Char → Nat → Prop) : Prop where
  valid : iv.Valid
  mem_iff : ∀ c q, q ∈ (iv.get c.toNat).getD [] ↔ leads c q

theorem holds_unset : Holds Intervals.unset fun _ _ => False :=
  ⟨Intervals.valid_unset, fun c q => by simp [Intervals.get_unset]⟩

/-- Entering a transition adds its target to its characters. -/
theorem Holds.update {iv : Intervals (List Nat)} {leads : Char → Nat → Prop} (h : Holds iv leads)
    (t : Transition) :
    Holds (iv.update t.lo.toNat t.hi.toNat (addTarget t.target))
      fun c q => leads c q ∨ t.contains c = true ∧ t.target = q := by
  refine ⟨h.valid.update _ _ _, fun c q => ?_⟩
  rw [h.valid.get_update _ _ _ (Char.toNat_le_maxCode c), ← h.mem_iff]
  by_cases htc : t.contains c = true
  · rw [if_pos (CharRange.contains_iff.1 htc), mem_addTarget]
    grind
  · rw [if_neg fun h' => htc (CharRange.contains_iff.2 h')]
    simp [htc]

theorem Holds.congr {iv : Intervals (List Nat)} {leads leads' : Char → Nat → Prop}
    (h : Holds iv leads) (hiff : ∀ c q, leads c q ↔ leads' c q) : Holds iv leads' :=
  ⟨h.valid, fun c q => (h.mem_iff c q).trans (hiff c q)⟩

/-- Entering the transitions of a state adds what they lead to. -/
theorem Holds.enter {iv : Intervals (List Nat)} {leads : Char → Nat → Prop} (h : Holds iv leads)
    (ts : List Transition) :
    Holds (ts.foldl (fun iv t => iv.update t.lo.toNat t.hi.toNat (addTarget t.target)) iv)
      fun c q => leads c q ∨ Transition.Leads ts c q := by
  induction ts generalizing iv leads with
  | nil => exact h.congr fun c q => by simp [Transition.leads_nil]
  | cons t ts ih =>
    apply (ih (h.update t)).congr
    intro c q
    rw [Transition.leads_cons, or_assoc]

/-- Entering the states of a set adds what their edges lead to. -/
theorem Holds.enterSet {iv : Intervals (List Nat)} {leads : Char → Nat → Prop}
    (h : Holds iv leads) (set : List Nat) :
    Holds
      (set.foldl (fun iv id => (nfa.state id).trans.foldl
        (fun iv t => iv.update t.lo.toNat t.hi.toNat (addTarget t.target)) iv) iv)
      fun c q => leads c q ∨ ∃ p ∈ set, nfa.Edge p (some c) q := by
  induction set generalizing iv leads with
  | nil => exact h.congr fun c q => by simp
  | cons p set ih =>
    apply (ih (h.enter (nfa.state p).trans)).congr
    intro c q
    rw [List.exists_mem_cons_iff, or_assoc]
    rfl

theorem holds_targetsOf (nfa : Nfa) (set : List Nat) :
    Holds (nfa.targetsOf set) fun c q => ∃ p ∈ set, nfa.Edge p (some c) q :=
  (holds_unset.enterSet set).congr fun c q => by simp

theorem mem_targetsAt {set : List Nat} {c : Char} {q : Nat} :
    q ∈ nfa.targetsAt set c ↔ ∃ p ∈ set, nfa.Edge p (some c) q :=
  (holds_targetsOf nfa set).mem_iff c q

/-! ## Successors of a set -/

/-- The characters of a segment with the closure of its targets, if there are any. -/
def arc? (nfa : Nfa) (accept : Option Nat) (s : Segment (List Nat)) :
    Option (CharRange × List Nat) :=
  match s.value, CharRange.ofCodes? s.lo s.hi with
  | some targets, some range =>
    if (nfa.closureOf accept targets).isEmpty then none
    else some (range, nfa.closureOf accept targets)
  | _, _ => none

theorem closures_eq_filterMap (storage : StateSet nfa.states.size)
    (runs : List (Segment (List Nat))) :
    nfa.closures accept storage runs = runs.filterMap (nfa.arc? accept) := by
  induction runs generalizing storage with
  | nil => rfl
  | cons s rest ih =>
    rw [closures, List.filterMap_cons, arc?]
    rcases s.value with _ | targets
    · exact ih storage
    · rcases CharRange.ofCodes? s.lo s.hi with _ | range
      · exact ih storage
      · simp only [closure_fst, ih]
        split
        · rfl
        · rfl

theorem arc?_eq_some {s : Segment (List Nat)} {e : CharRange × List Nat} :
    nfa.arc? accept s = some e ↔
      CharRange.ofCodes? s.lo s.hi = some e.1 ∧ e.2 = nfa.closureOf accept (s.value.getD []) ∧
        e.2 ≠ [] := by
  have hempty : nfa.closureOf accept [] = [] := by
    rw [List.eq_nil_iff_forall_not_mem]
    intro q hq
    obtain ⟨-, -, p, hp, -⟩ := mem_closureOf.1 hq
    cases hp
  unfold arc?
  obtain ⟨range, set⟩ := e
  split
  · next targets range' hval hrange =>
    rw [hval, hrange, Option.getD_some]
    split
    · next h =>
      rw [List.isEmpty_iff] at h
      grind
    · next h =>
      rw [List.isEmpty_iff] at h
      grind
  · next h =>
    rcases hval : s.value with _ | targets
    · simp [hempty]
    · rcases hrange : CharRange.ofCodes? s.lo s.hi with _ | range'
      · simp
      · exact absurd hrange (h _ _ hval)

/-- What a character leads to from a set. -/
theorem mem_successors {set next : List Nat} {c : Char} :
    (∃ e ∈ nfa.successors accept set, e.1.contains c = true ∧ e.2 = next) ↔
      next = nfa.closureOf accept (nfa.targetsAt set c) ∧ next ≠ [] := by
  have hv := (holds_targetsOf nfa set).valid
  simp only [successors, closures_eq_filterMap, List.mem_filterMap, arc?_eq_some]
  constructor
  · intro h
    obtain ⟨e, ⟨s, hs, hrange, hset, hne⟩, hc, rfl⟩ := h
    obtain ⟨hlo, hhi⟩ := (CharRange.contains_of_ofCodes? hrange).1 hc
    refine ⟨?_, hne⟩
    rw [hset, hv.value_eq_get hs hlo hhi]
    rfl
  · intro h
    obtain ⟨rfl, hne⟩ := h
    obtain ⟨s, hs, hlo, hhi, hval⟩ := hv.exists_segment _ (Char.toNat_le_maxCode c)
    rcases hrange : CharRange.ofCodes? s.lo s.hi with _ | range
    · exact absurd ⟨hlo, hhi⟩
        (CharRange.not_between_of_ofCodes? (hv.segments_ordered.1 s hs).2 hrange c)
    · refine ⟨⟨range, nfa.closureOf accept (nfa.targetsAt set c)⟩, ⟨s, hs, hrange, ?_, hne⟩,
        (CharRange.contains_of_ofCodes? hrange).2 ⟨hlo, hhi⟩, rfl⟩
      rw [hval]
      rfl

/-- The ranges of the successors come in order, and none is void. -/
theorem successors_ordered (nfa : Nfa) (accept : Option Nat) (set : List Nat) :
    ((nfa.successors accept set).Pairwise fun e f => e.1.hi.toNat < f.1.lo.toNat) ∧
      ∀ e ∈ nfa.successors accept set, e.1.lo.toNat ≤ e.1.hi.toNat := by
  have hv := (holds_targetsOf nfa set).valid
  rw [successors, closures_eq_filterMap]
  constructor
  · apply hv.segments_ordered.2.filterMap _
    intro s s' hlt e he e' he'
    have := CharRange.le_of_ofCodes? (arc?_eq_some.1 he).1
    have := CharRange.le_of_ofCodes? (arc?_eq_some.1 he').1
    omega
  · intro e he
    obtain ⟨s, -, hs⟩ := List.mem_filterMap.1 he
    exact (CharRange.le_of_ofCodes? (arc?_eq_some.1 hs).1).2.2

/-! ## The states that a text leads to -/

open Classical in
/-- The states that a text leads to, in ascending order. -/
noncomputable def reached (nfa : Nfa) (w : List Char) : List Nat :=
  (List.range nfa.states.size).filter fun q => nfa.Reaches w q

/-- Those of them that closures keep. -/
noncomputable def keptAt (nfa : Nfa) (accept : Option Nat) (w : List Char) : List Nat :=
  (nfa.reached w).filter (nfa.isKept accept)

theorem mem_reached {w : List Char} {q : Nat} :
    q ∈ nfa.reached w ↔ q < nfa.states.size ∧ nfa.Reaches w q := by
  simp [reached]

theorem mem_keptAt {w : List Char} {q : Nat} :
    q ∈ nfa.keptAt accept w ↔
      (q < nfa.states.size ∧ nfa.Reaches w q) ∧ nfa.isKept accept q = true := by
  rw [keptAt, List.mem_filter, mem_reached]

theorem closureOf_eq_keptAt {seeds : List Nat} {w : List Char}
    (h : ∀ q, (∃ p ∈ seeds, Trail nfa.Edge p [] q) ↔ nfa.Reaches w q) :
    nfa.closureOf accept seeds = nfa.keptAt accept w := by
  classical
  rw [keptAt, reached, List.filter_filter]
  apply closureOf_eq_filter
  intro q hq
  rw [mem_closureOf, h]
  simp [hq]

theorem closureOf_start : nfa.closureOf accept [nfa.start] = nfa.keptAt accept [] :=
  closureOf_eq_keptAt fun q => by simp [Reaches]

/-- A state with an edge that reads a character is always kept. -/
theorem isKept_of_edge {p q : Nat} {c : Char} (e : nfa.Edge p (some c) q) :
    nfa.isKept accept p = true := by
  obtain ⟨t, ht, -⟩ := e
  have hne : (nfa.state p).trans.isEmpty = false := by
    rw [List.isEmpty_eq_false_iff]
    exact List.ne_nil_of_mem ht
  simp [isKept, State.isImportant, hne]

/-- Reading a character from the kept states leads as far as reading it from all states. -/
theorem closureOf_keptAt (w : List Char) (c : Char) :
    nfa.closureOf accept (nfa.targetsAt (nfa.keptAt accept w) c) =
      nfa.keptAt accept (w ++ [c]) := by
  apply closureOf_eq_keptAt
  intro q
  rw [Reaches, trail_snoc]
  constructor
  · intro h
    obtain ⟨t, ht, htq⟩ := h
    obtain ⟨s, hs, e⟩ := mem_targetsAt.1 ht
    exact ⟨s, t, (mem_keptAt.1 hs).1.2, e, htq⟩
  · intro h
    obtain ⟨s, t, hs, e, htq⟩ := h
    -- a state that is dropped has no edge that reads a character
    have hkept : s ∈ nfa.keptAt accept w := mem_keptAt.2 ⟨⟨e.lt_size, hs⟩, isKept_of_edge e⟩
    exact ⟨t, mem_targetsAt.2 ⟨s, hkept, e⟩, htq⟩

/-- The kept states that a text leads to, found one character after another. -/
def walk (nfa : Nfa) (accept : Option Nat) (w : List Char) : List Nat :=
  w.foldl (fun set c => nfa.closureOf accept (nfa.targetsAt set c))
    (nfa.closureOf accept [nfa.start])

theorem walk_eq_keptAt (nfa : Nfa) (accept : Option Nat) (w : List Char) :
    nfa.walk accept w = nfa.keptAt accept w := by
  induction w using List.reverseRecOn with
  | nil => exact closureOf_start
  | append_singleton w c ih =>
    rw [← closureOf_keptAt, ← ih]
    exact List.foldl_concat ..

end Nfa

/-! ## The graph of subsets -/

/-- The edges that the rows of a deterministic graph stand for. -/
def RowEdge (rows : Array (List Transition)) (i : Nat) : Option Char → Nat → Prop
  | none, _ => False
  | some c, j => Transition.Leads (rows.getD i []) c j

section RowEdge

variable {rows : Array (List Transition)} {i j : Nat} {c : Char} {w : List Char}

/-- No edge of such a graph is silent. -/
theorem trail_row_nil : Trail (RowEdge rows) i [] j ↔ j = i := by
  constructor
  · intro h
    cases h with
    | nil => rfl
    | silent e _ => exact e.elim
  · intro heq
    obtain rfl := heq
    exact .nil _

theorem trail_row_snoc : Trail (RowEdge rows) i (w ++ [c]) j ↔
    ∃ s, Trail (RowEdge rows) i w s ∧ RowEdge rows s (some c) j := by
  rw [trail_snoc]
  simp only [trail_row_nil]
  constructor
  · intro h
    obtain ⟨s, t, hs, e, rfl⟩ := h
    exact ⟨s, hs, e⟩
  · intro h
    obtain ⟨s, hs, e⟩ := h
    exact ⟨s, j, hs, e, rfl⟩

end RowEdge

namespace Nfa

variable {nfa : Nfa} {accept : Option Nat}

/-- The rows of the subset construction. -/
def graph (nfa : Nfa) (accept : Option Nat) : Array (List Transition) :=
  (nfa.exploreSubsets accept).edges.map transitionsOf

theorem sound_exploreSubsets (nfa : Nfa) (accept : Option Nat) :
    Numbering.Sound (nfa.successors accept) (nfa.keptAt accept []) (nfa.exploreSubsets accept) ∧
      (nfa.exploreSubsets accept).edges.size = (nfa.exploreSubsets accept).nodes.size := by
  rw [exploreSubsets]
  apply Numbering.sound_explore
  rw [← closureOf_start]
  exact Numbering.sound_start

theorem size_graph : (nfa.graph accept).size = (nfa.exploreSubsets accept).nodes.size := by
  rw [graph, Array.size_map, (sound_exploreSubsets nfa accept).2]

/-- The ranges of a row come in order, as those of the successors do. -/
theorem sorted_row {set : List Nat} {nodes : Array (List Nat)} {row : List (CharRange × Nat)}
    (h : Numbering.RowOf (nfa.successors accept) nodes set row) :
    Transition.Sorted (row.map fun e => ⟨e.1, e.2⟩) := by
  obtain ⟨hpair, hproper⟩ := successors_ordered nfa accept set
  rw [← List.pairwise_map (f := Prod.fst) (R := fun a b : CharRange => a.hi.toNat < b.lo.toNat),
    ← h.labels] at hpair
  constructor
  · rw [List.pairwise_map] at hpair ⊢
    exact hpair
  · intro t ht
    obtain ⟨e, he, rfl⟩ := List.mem_map.1 ht
    have hmem : e.1 ∈ (nfa.successors accept set).map Prod.fst := h.labels ▸ List.mem_map_of_mem he
    obtain ⟨f, hf, hfe⟩ := List.mem_map.1 hmem
    have := hproper f hf
    rwa [hfe] at this

/-- What is read back from the table of a row is what the table was built from. -/
theorem rowOf_eq {set : List Nat} {nodes : Array (List Nat)} {row : List (CharRange × Nat)}
    (h : Numbering.RowOf (nfa.successors accept) nodes set row) :
    nfa.rowOf row = transitionsOf row :=
  Table.transitions_build nfa.config (Transition.joined_join (sorted_row h))

/-- The transitions made from a row say what the row says. -/
theorem leads_transitionsOf {set : List Nat} {nodes : Array (List Nat)}
    {row : List (CharRange × Nat)} (h : Numbering.RowOf (nfa.successors accept) nodes set row)
    {c : Char} {j : Nat} :
    Transition.Leads (transitionsOf row) c j ↔
      ∃ label, label.contains c = true ∧ (label, j) ∈ row := by
  rw [transitionsOf, Transition.leads_join (sorted_row h)]
  constructor
  · intro h'
    obtain ⟨t, ht, htc, rfl⟩ := h'
    obtain ⟨e, he, rfl⟩ := List.mem_map.1 ht
    exact ⟨e.1, htc, he⟩
  · intro h'
    obtain ⟨label, hc, he⟩ := h'
    exact ⟨_, List.mem_map_of_mem he, hc, rfl⟩

theorem map_rowOf (nfa : Nfa) (accept : Option Nat) :
    (nfa.exploreSubsets accept).edges.map nfa.rowOf = nfa.graph accept := by
  obtain ⟨hsound, -⟩ := sound_exploreSubsets nfa accept
  rw [graph]
  apply Array.map_congr_left
  intro row hrow
  obtain ⟨i, hi⟩ := Array.mem_iff_getElem?.1 hrow
  obtain ⟨set, -, hrowOf⟩ := hsound.row i row hi
  exact rowOf_eq hrowOf

theorem getD_graph {i : Nat} (hi : i < (nfa.exploreSubsets accept).nodes.size) :
    ∃ set row, (nfa.exploreSubsets accept).nodes[i]? = some set ∧
      (nfa.graph accept).getD i [] = transitionsOf row ∧
      Numbering.RowOf (nfa.successors accept) (nfa.exploreSubsets accept).nodes set row := by
  obtain ⟨hsound, hsize⟩ := sound_exploreSubsets nfa accept
  obtain ⟨row, hrow⟩ : ∃ row, (nfa.exploreSubsets accept).edges[i]? = some row :=
    ⟨_, Array.getElem?_eq_getElem (by omega)⟩
  obtain ⟨set, hset, hrowOf⟩ := hsound.row i _ hrow
  refine ⟨set, row, hset, ?_, hrowOf⟩
  rw [graph, Array.getD_eq_getD_getElem?, Array.getElem?_map, hrow]
  rfl

theorem sorted_graph (i : Nat) : Transition.Sorted ((nfa.graph accept).getD i []) := by
  by_cases hi : i < (nfa.exploreSubsets accept).nodes.size
  · obtain ⟨set, row, -, hget, hrow⟩ := getD_graph hi
    rw [hget]
    exact Transition.sorted_join (sorted_row hrow)
  · rw [Array.getD_eq_getD_getElem?, Array.getElem?_eq_none (by rw [size_graph]; omega)]
    exact Transition.sorted_nil

/-- The edges of the graph go from set to set. -/
theorem rowEdge_graph {i j : Nat} {c : Char} : RowEdge (nfa.graph accept) i (some c) j ↔
    ∃ set, (nfa.exploreSubsets accept).nodes[i]? = some set ∧
      ∃ next, (nfa.exploreSubsets accept).nodes[j]? = some next ∧
        next = nfa.closureOf accept (nfa.targetsAt set c) ∧ next ≠ [] := by
  rw [RowEdge]
  by_cases hi : i < (nfa.exploreSubsets accept).nodes.size
  · obtain ⟨set, row, hset, hget, hrow⟩ := getD_graph hi
    rw [hget, leads_transitionsOf hrow]
    constructor
    · intro h
      obtain ⟨label, hc, he⟩ := h
      obtain ⟨next, hnext, hmem⟩ := hrow.mem_iff.1 he
      exact ⟨set, hset, next, hnext, mem_successors.1 ⟨_, hmem, hc, rfl⟩⟩
    · intro h
      obtain ⟨set', hset', next, hnext, hmove⟩ := h
      obtain rfl : set = set' := Option.some.inj (hset.symm.trans hset')
      obtain ⟨⟨label, next'⟩, he, hc, rfl⟩ := mem_successors.2 hmove
      exact ⟨label, hc, hrow.mem_iff.2 ⟨_, hnext, he⟩⟩
  · rw [Array.getD_eq_getD_getElem?, Array.getElem?_eq_none (by rw [size_graph]; omega),
      Array.getElem?_eq_none (by omega)]
    simp [Transition.leads_nil]

/-! ## Texts in the graph -/

/-- A way through the graph ends at the set of the kept states that its text leads to. -/
theorem node_of_trail {w : List Char} {i : Nat} (h : Trail (RowEdge (nfa.graph accept)) 0 w i) :
    (nfa.exploreSubsets accept).nodes[i]? = some (nfa.keptAt accept w) ∧
      (w = [] ∨ nfa.keptAt accept w ≠ []) := by
  induction w using List.reverseRecOn generalizing i with
  | nil =>
    obtain rfl := trail_row_nil.1 h
    exact ⟨(sound_exploreSubsets nfa accept).1.root_eq, .inl rfl⟩
  | append_singleton w c ih =>
    obtain ⟨j, hj, e⟩ := trail_row_snoc.1 h
    obtain ⟨set, hset, next, hnext, hmove, hne⟩ := rowEdge_graph.1 e
    obtain rfl : nfa.keptAt accept w = set := Option.some.inj ((ih hj).1.symm.trans hset)
    rw [closureOf_keptAt] at hmove
    rw [← hmove]
    exact ⟨hnext, .inr hne⟩

/-- From a set of the graph each of its characters leads on. -/
theorem exists_trail_snoc {w : List Char} {i : Nat} {set : List Nat} {e : CharRange × List Nat}
    {c : Char} (h : Trail (RowEdge (nfa.graph accept)) 0 w i)
    (hset : (nfa.exploreSubsets accept).nodes[i]? = some set)
    (he : e ∈ nfa.successors accept set) (hc : e.1.contains c = true) :
    ∃ j, Trail (RowEdge (nfa.graph accept)) 0 (w ++ [c]) j ∧
      (nfa.exploreSubsets accept).nodes[j]? = some e.2 := by
  obtain ⟨hlt, -⟩ := Array.getElem?_eq_some_iff.1 hset
  obtain ⟨set', row, hset', -, hrow⟩ := getD_graph hlt
  obtain rfl : set = set' := Option.some.inj (hset.symm.trans hset')
  -- the successor has a number, since the row of the set has an entry for it
  obtain ⟨j, hj⟩ := hrow.exists_number he
  have hmove := mem_successors.1 ⟨e, he, hc, rfl⟩
  exact ⟨j, trail_row_snoc.2 ⟨i, h, rowEdge_graph.2 ⟨set, hset, e.2, hj, hmove⟩⟩, hj⟩

theorem exists_trail {w : List Char} (h : nfa.keptAt accept w ≠ []) :
    ∃ i, Trail (RowEdge (nfa.graph accept)) 0 w i := by
  induction w using List.reverseRecOn with
  | nil => exact ⟨0, .nil 0⟩
  | append_singleton w c ih =>
    have hmove : nfa.keptAt accept (w ++ [c]) =
        nfa.closureOf accept (nfa.targetsAt (nfa.keptAt accept w) c) := (closureOf_keptAt w c).symm
    -- states that the longer text leads to have edges from some that the shorter one leads to
    have hne : nfa.keptAt accept w ≠ [] := by
      obtain ⟨q, hq⟩ := List.exists_mem_of_ne_nil _ (hmove ▸ h)
      obtain ⟨-, -, t, ht, -⟩ := mem_closureOf.1 hq
      obtain ⟨s, hs, -⟩ := mem_targetsAt.1 ht
      exact List.ne_nil_of_mem hs
    obtain ⟨i, hi⟩ := ih hne
    obtain ⟨e, he, hc, -⟩ := mem_successors.2 ⟨hmove, h⟩
    obtain ⟨j, hj, -⟩ := exists_trail_snoc hi (node_of_trail hi).1 he hc
    exact ⟨j, hj⟩

/-- Along the way on which a set was discovered every range has a character, so that a text leads
there. -/
theorem exists_trail_of_next {set : List Nat}
    (h : Relation.ReflTransGen (Numbering.Next (nfa.successors accept)) (nfa.keptAt accept [])
      set) :
    ∃ w i, Trail (RowEdge (nfa.graph accept)) 0 w i ∧
      (nfa.exploreSubsets accept).nodes[i]? = some set := by
  induction h with
  | refl => exact ⟨[], 0, .nil 0, (sound_exploreSubsets nfa accept).1.root_eq⟩
  | @tail set _ _ hnext ih =>
    obtain ⟨w, i, hi, hset⟩ := ih
    obtain ⟨e, he, rfl⟩ := hnext
    have hlo : e.1.contains e.1.lo = true :=
      CharRange.contains_iff.2 ⟨Nat.le_refl _, (successors_ordered nfa accept set).2 e he⟩
    obtain ⟨j, hj, hnode⟩ := exists_trail_snoc hi hset he hlo
    exact ⟨w ++ [e.1.lo], j, hj, hnode⟩

/-- Every set of the graph belongs to some text. -/
theorem exists_text {i : Nat} (hi : i < (nfa.exploreSubsets accept).nodes.size) :
    ∃ w, Trail (RowEdge (nfa.graph accept)) 0 w i := by
  have hset := Array.getElem?_eq_getElem hi
  have hnext := (sound_exploreSubsets nfa accept).1.reachable i _ hset
  obtain ⟨w, j, hj, hnode⟩ := exists_trail_of_next hnext
  obtain rfl : j = i := (nfa.exploreSubsets accept).roster.number_unique hnode hset
  exact ⟨w, hj⟩

end Nfa

end LongestMatch
