import LongestMatch.Proofs.Atoms
import LongestMatch.Proofs.Recognizers

/-!
# The work list of the subset construction

The subset construction expands sets of states one after another, and while it does so more sets
come in. It ends since no set comes in twice and there are finitely many: `Numbering.ends_explore`
counts its turns, `Nfa.size_nodes_le` bounds them.

What is built has one state for each set of kept states that a text leads to, and no others
(`Nfa.Discovers`). So whatever is asked of all the states is asked of all texts: an automaton none
of whose states has an action matches nothing. It is all put together in `Nfa.subsets_discovered`.
-/

namespace LongestMatch

namespace Numbering

/-! ## Turns of the work list -/

section Turns

variable {α β : Type} [DecidableEq α] [Hashable α] {next : α → List (β × α)}

/-- One turn: the first number without edges is expanded. There is none if all have their edges. -/
def turn? (next : α → List (β × α)) (found : Numbering α β) : Option (Numbering α β) :=
  if h : found.edges.size < found.roster.nodes.size then
    let met := found.roster.internAll (next found.roster.nodes[found.edges.size])
    some ⟨met.1, found.edges.push met.2⟩
  else none

/-- Begun with `found`, the work list is at its end after some number of turns, with `last`. -/
inductive Ends (next : α → List (β × α)) : Numbering α β → Nat → Numbering α β → Prop where
  | over {found : Numbering α β} : found.turn? next = none → Ends next found 0 found
  | turn {found met last : Numbering α β} {count : Nat} :
      found.turn? next = some met → Ends next met count last → Ends next found (count + 1) last

/-- Exploration ends, and each turn has left the edges of one number. -/
theorem ends_explore (finite : ∃ all : List α, ∀ a, ∀ e ∈ next a, e.2 ∈ all)
    (found : Numbering α β) :
    ∃ count, Ends next found count (explore next finite found) ∧
      found.edges.size + count = (explore next finite found).edges.size := by
  fun_induction explore next finite found with
  | case1 found hlt met ih =>
    obtain ⟨count, hends, hcount⟩ := ih
    refine ⟨count + 1, .turn (dif_pos hlt) hends, ?_⟩
    rw [← hcount, Array.size_push]
    omega
  | case2 found hge => exact ⟨0, .over (dif_neg hge), rfl⟩

end Turns

end Numbering

/-- A thing is in a roster once. -/
theorem Roster.nodup_nodes {α : Type} [DecidableEq α] [Hashable α] (r : Roster α) :
    r.nodes.toList.Nodup := by
  rw [List.nodup_iff_getElem?_ne_getElem?]
  intro i j hij hj heq
  rw [Array.getElem?_toList, Array.getElem?_toList] at heq
  have hget : r.nodes[j]? = some r.nodes[j] := Array.getElem?_eq_getElem hj
  have := r.number_unique (heq.trans hget) hget
  omega

theorem length_sublistsOf {α : Type} (list : List α) :
    (sublistsOf list).length = 2 ^ list.length := by
  induction list with
  | nil => rfl
  | cons a rest ih =>
    rw [sublistsOf, List.length_append, List.length_map, ih, List.length_cons, Nat.pow_succ]
    omega

namespace Nfa

variable {nfa : Nfa} {accept : Option Nat}

/-! ## The sets that come in -/

theorem keptAt_sublist (w : List Char) :
    (nfa.keptAt accept w).Sublist (List.range nfa.states.size) :=
  List.filter_sublist.trans List.filter_sublist

theorem sublist_of_mem_nodes {set : List Nat} (h : set ∈ (nfa.exploreSubsets accept).nodes) :
    set.Sublist (List.range nfa.states.size) := by
  obtain ⟨i, hi, rfl⟩ := Array.getElem_of_mem h
  obtain ⟨w, hw⟩ := exists_text hi
  have hnode := (node_of_trail hw).1
  rw [Array.getElem?_eq_getElem hi] at hnode
  rw [Option.some.inj hnode]
  exact keptAt_sublist w

/-- The sets have no more numbers than a set of all the states has parts. -/
theorem size_nodes_le (nfa : Nfa) (accept : Option Nat) :
    (nfa.exploreSubsets accept).nodes.size ≤ 2 ^ nfa.states.size := by
  have hsubset : (nfa.exploreSubsets accept).nodes.toList ⊆
      sublistsOf (List.range nfa.states.size) := fun set hset =>
    mem_sublistsOf (sublist_of_mem_nodes (Array.mem_toList_iff.1 hset))
  have hle := ((Roster.nodup_nodes _).subperm hsubset).length_le
  rwa [length_sublistsOf, List.length_range, Array.length_toList] at hle

/-- States are listed in ascending order, so a set has only one list. -/
theorem eq_of_same_members {set set' : List Nat} (h : set.Sublist (List.range nfa.states.size))
    (h' : set'.Sublist (List.range nfa.states.size)) (hsame : ∀ q, q ∈ set ↔ q ∈ set') :
    set = set' := by
  have hasc : set.Pairwise (· < ·) := List.pairwise_lt_range.sublist h
  have hasc' : set'.Pairwise (· < ·) := List.pairwise_lt_range.sublist h'
  have hperm : set.Perm set' :=
    (List.perm_ext_iff_of_nodup (List.nodup_range.sublist h) (List.nodup_range.sublist h')).2 hsame
  exact hperm.eq_of_pairwise (fun a b _ _ hab hba => absurd hab hba.asymm) hasc hasc'

/-- The turns of the work list are as many as the sets that it has met. -/
theorem ends_exploreSubsets (nfa : Nfa) (accept : Option Nat) :
    Numbering.Ends (nfa.successors accept)
      (.start (nfa.closure accept (.empty nfa.states.size) [nfa.start]).1)
      (nfa.exploreSubsets accept).nodes.size (nfa.exploreSubsets accept) := by
  obtain ⟨count, hends, hcount⟩ := Numbering.ends_explore
    ⟨sublistsOf (List.range nfa.states.size),
      fun set e h => mem_sublistsOf (nfa.successors_sublist accept set e h)⟩
    (Numbering.start (nfa.closure accept (.empty nfa.states.size) [nfa.start]).1)
  have hsize : count = (nfa.exploreSubsets accept).nodes.size := by
    rw [← (sound_exploreSubsets nfa accept).2, exploreSubsets, ← hcount]
    exact (Nat.zero_add count).symm
  exact hsize ▸ hends

/-! ## One state for each set -/

/-- The states below `size` are those that the texts lead to along `edge`, one for each set of
states that the construction keeps of a text. -/
structure Discovers (nfa : Nfa) (accept : Option Nat) (edge : Nat → Option Char → Nat → Prop)
    (size : Nat) : Prop where
  exists_text : ∀ i < size, ∃ w, Trail edge 0 w i
  lt_size : ∀ w i, Trail edge 0 w i → i < size
  eq_iff : ∀ v w i j, Trail edge 0 v i → Trail edge 0 w j →
    (i = j ↔ ∀ q, q ∈ nfa.keptAt accept v ↔ q ∈ nfa.keptAt accept w)

/-- The graph of the sets has a state for each of them. -/
theorem discovers_graph (nfa : Nfa) (accept : Option Nat) :
    nfa.Discovers accept (RowEdge (nfa.graph accept)) (nfa.exploreSubsets accept).nodes.size := by
  refine ⟨fun i hi => exists_text hi, fun w i h => ?_, fun v w i j hv hw => ⟨?_, fun hsame => ?_⟩⟩
  · exact (Array.getElem?_eq_some_iff.1 (node_of_trail h).1).1
  · rintro rfl q
    have heq := (node_of_trail hv).1.symm.trans (node_of_trail hw).1
    rw [Option.some.inj heq]
  · have heq := eq_of_same_members (keptAt_sublist v) (keptAt_sublist w) hsame
    have hnode := (node_of_trail hv).1
    rw [heq] at hnode
    exact (nfa.exploreSubsets accept).roster.number_unique hnode (node_of_trail hw).1

/-- A single state without edges has the empty text. -/
theorem discovers_single {edge : Nat → Option Char → Nat → Prop} (h : ∀ l q, ¬edge 0 l q) :
    nfa.Discovers accept edge 1 := by
  refine ⟨fun i hi => ⟨[], ?_⟩, fun w i hw => ?_, fun v w i j hv hw => ?_⟩
  · obtain rfl : i = 0 := by omega
    exact .nil 0
  · rw [((trail_of_no_edge h).1 hw).2]
    exact Nat.one_pos
  · obtain ⟨rfl, rfl⟩ := (trail_of_no_edge h).1 hv
    obtain ⟨rfl, rfl⟩ := (trail_of_no_edge h).1 hw
    simp

theorem Discovers.congr {edge edge' : Nat → Option Char → Nat → Prop} {size : Nat}
    (h : nfa.Discovers accept edge size) (hedge : ∀ p l q, edge' p l q ↔ edge p l q) :
    nfa.Discovers accept edge' size := by
  obtain ⟨hexists, hlt, heq⟩ := h
  refine ⟨fun i hi => ?_, fun w i hw => ?_, fun v w i j hv hw => ?_⟩
  · obtain ⟨w, hw⟩ := hexists i hi
    exact ⟨w, (trail_congr hedge).2 hw⟩
  · exact hlt w i ((trail_congr hedge).1 hw)
  · exact heq v w i j ((trail_congr hedge).1 hv) ((trail_congr hedge).1 hw)

end Nfa

namespace Dfa

variable {dfa : Dfa}

/-! ## Automata without actions -/

theorem isEmpty_iff : dfa.isEmpty = true ↔ ∀ i, (dfa.state i).action = none := by
  rw [isEmpty, Array.all_eq_true]
  constructor
  · intro h i
    by_cases hi : i < dfa.states.size
    · have := h i hi
      rw [Option.isNone_iff_eq_none] at this
      simpa [state, Array.getD_eq_getD_getElem?, hi] using this
    · simp [state, Array.getD_eq_getD_getElem?, hi]
  · intro h i hi
    have := h i
    rw [state, Array.getD_eq_getD_getElem?, Array.getElem?_eq_getElem hi] at this
    rw [Option.isNone_iff_eq_none]
    exact this

/-- Where no state has an action, a scan that has found no match finds none. -/
theorem best_scan_eq_none (h : ∀ i, (dfa.state i).action = none) (i : Nat) {s : Scan}
    (limit : Option Nat) (src : Source) (hs : s.best = none) :
    (dfa.scan i s limit src).2.1.best = none := by
  fun_induction dfa.scan i s limit src with
  | case1 => exact hs
  | case2 => exact hs
  | case3 => exact hs
  | case4 => exact hs
  | case5 i s limit src _ c src' _ next _ _ ih =>
    apply ih
    simp [Scan.advance, h, hs]

/-- Where no state has an action, nothing is matched, whatever the source yields. -/
theorem result_ne_matched (h : ∀ i, (dfa.state i).action = none) (limit : Option Nat)
    (src : Source) (out : String) (action : ActionId) :
    (dfa.matchLimited limit src out).result ≠ .ok (.matched action) := by
  have hstart : dfa.scanStart.best = none := by simp [scanStart, h]
  have hbest := best_scan_eq_none h 0 limit src hstart
  unfold matchLimited
  generalize dfa.scan 0 dfa.scanStart limit src = outcome at hbest ⊢
  split
  · simp
  · simp
  · next hstop =>
    simp only at hbest
    rw [hbest]
    simp

end Dfa

namespace Nfa

variable {nfa : Nfa}

/-! ## Compiled automata -/

section Compile

variable {catalog : Catalog} {failPolicy : FailPolicy} {eofAction : Option ActionId} {dfa : Dfa}
  (h : nfa.compile catalog failPolicy eofAction = .ok dfa)

include h

theorem discovers_compile : nfa.Discovers none dfa.Edge dfa.stateCount := by
  rcases states_compile h with hstates | ⟨hstates, -⟩
  · have hsize : dfa.stateCount = (nfa.exploreSubsets none).nodes.size := by
      rw [Dfa.stateCount, hstates, subsetStates, Array.size_zipWith,
        (sound_exploreSubsets nfa none).2, Nat.min_self]
    rw [hsize]
    exact (discovers_graph nfa none).congr (edge_subsetStates hstates)
  · have hsize : dfa.stateCount = 1 := by rw [Dfa.stateCount, hstates]; rfl
    have hempty : dfa.state 0 = {} := by rw [Dfa.state, hstates]; rfl
    rw [hsize]
    refine discovers_single fun l q hedge => ?_
    cases l with
    | none => exact hedge
    | some c =>
      rw [Dfa.Edge, hempty] at hedge
      cases hedge

/-- A compiled automaton is empty exactly if it matches no text. -/
theorem isEmpty_compile_iff :
    dfa.isEmpty = true ↔ ∀ text : String, dfa.matchWhole? text = none := by
  rw [Dfa.isEmpty_iff]
  constructor
  · intro hnone text
    rw [Dfa.matchWhole?_eq, Option.eq_none_iff_forall_ne_some]
    intro a ha
    obtain ⟨i, -, hi⟩ := Dfa.actionFrom_eq_some.1 ha
    rw [hnone i] at hi
    cases hi
  · intro hnone i
    rw [Option.eq_none_iff_forall_ne_some]
    intro a ha
    -- a state with an action is there, so some text leads to it
    have hi : i < dfa.stateCount := by
      by_contra hge
      rw [Dfa.state, Array.getD_eq_getD_getElem?, Array.getElem?_eq_none (Nat.not_lt.1 hge)] at ha
      cases ha
    obtain ⟨w, hw⟩ := (discovers_compile h).exists_text i hi
    have hmatch : dfa.matchWhole? (String.ofList w) = some a := by
      rw [Dfa.matchWhole?_eq, String.toList_ofList]
      exact Dfa.actionFrom_eq_some.2 ⟨i, hw, ha⟩
    rw [hnone] at hmatch
    cases hmatch

/-- Without an action in any state, a single state without anything is left. -/
theorem states_eq_of_isEmpty (hempty : dfa.isEmpty = true) : dfa.states = #[{}] := by
  rw [compile_eq, compiledStates] at h
  split at h
  · split at h
    · cases h
      rfl
    · next hall =>
      -- some set has an action, and so has its state
      cases h
      rw [List.all_eq_true] at hall
      push Not at hall
      obtain ⟨r, hr, hsome⟩ := hall
      obtain ⟨set, hset, rfl⟩ := List.mem_map.1 hr
      obtain ⟨i, hi⟩ := Array.mem_iff_getElem?.1 (Array.mem_toList_iff.1 hset)
      have haction := Dfa.isEmpty_iff.1 hempty i
      rw [action_subsetStates rfl hi] at haction
      rw [haction] at hsome
      exact absurd rfl hsome
  · cases h

end Compile

end Nfa

namespace Recognizer

/-! ## Recognizers -/

theorem discovers_ofNfa (nfa : Nfa) :
    nfa.Discovers (some nfa.last) (ofNfa nfa).Edge (ofNfa nfa).size := by
  rw [ofNfa_eq]
  split
  · have hgraph := Nfa.discovers_graph nfa (some nfa.last)
    rwa [← Nfa.size_graph] at hgraph
  · refine Nfa.discovers_single fun l q hedge => ?_
    cases l with
    | none => exact hedge
    | some c => exact Transition.leads_nil c q hedge

/-- No state of a recognizer accepts exactly if it accepts no text. -/
theorem forall_accepts_eq_false_iff (nfa : Nfa) :
    (∀ i, (ofNfa nfa).accepts i = false) ↔ ∀ w, w ∉ (ofNfa nfa).accepted := by
  constructor
  · rintro hnone w ⟨i, -, hi⟩
    rw [hnone i] at hi
    cases hi
  · intro hnone i
    by_cases hi : i < (ofNfa nfa).size
    · obtain ⟨w, hw⟩ := (discovers_ofNfa nfa).exists_text i hi
      exact Bool.eq_false_iff.2 fun haccept => hnone w ⟨i, hw, haccept⟩
    · exact accepts_eq_false ((sound_ofNfa nfa).size_accepting ▸ Nat.not_lt.1 hi)

/-- Without an accepting state, a single state without edges is left. -/
theorem ofNfa_eq_nothing {nfa : Nfa} (h : ∀ i, (ofNfa nfa).accepts i = false) :
    ofNfa nfa = nothing := by
  rw [ofNfa_eq] at h ⊢
  split
  · next hany =>
    rw [if_pos hany] at h
    obtain ⟨i, hi, haccept⟩ := Array.any_eq_true.1 hany
    have hnone := h i
    rw [accepts, Array.getD_eq_getD_getElem?, Array.getElem?_eq_getElem hi] at hnone
    cases haccept.symm.trans hnone
  · rfl

end Recognizer

namespace Nfa

/-! ## All of it -/

/-- The subset construction ends, and it builds a state for each set that texts lead to and for no
other. Of every automaton, whatever its edges and its start are:

* The work list ends after one turn for each set that it has met. These are lists of states in
  ascending order, at most one for each part of the set of all states, and no two have the same
  members.
* Each state of a compiled automaton is reached by some text, and two texts reach the same state
  exactly if the same states are kept of both. So it is empty exactly if no text is matched, and
  then it has one state and no transitions; and it matches the empty text exactly if it says so.
* The same holds of the recognizer, where the last state is kept as well. -/
theorem subsets_discovered (nfa : Nfa) :
    (∀ accept,
      let found := nfa.exploreSubsets accept
      Numbering.Ends (nfa.successors accept)
        (.start (nfa.closure accept (.empty nfa.states.size) [nfa.start]).1)
        found.nodes.size found ∧
      found.nodes.size ≤ 2 ^ nfa.states.size ∧
      (∀ set ∈ found.nodes, set.Pairwise (· < ·)) ∧
      ∀ (i j : Nat) (set set' : List Nat), found.nodes[i]? = some set →
        found.nodes[j]? = some set' → (∀ q, q ∈ set ↔ q ∈ set') → i = j) ∧
    (∀ catalog failPolicy eofAction dfa, nfa.compile catalog failPolicy eofAction = .ok dfa →
      nfa.Discovers none dfa.Edge dfa.stateCount ∧
      (dfa.isEmpty = true ↔ ∀ text : String, dfa.matchWhole? text = none) ∧
      (dfa.isEmpty = true → dfa.states = #[{}] ∧
        ∀ limit src out action, (dfa.matchLimited limit src out).result ≠ .ok (.matched action)) ∧
      (dfa.matchesEmpty = true ↔ ∃ action, dfa.matchWhole? "" = some action)) ∧
    let g := Recognizer.ofNfa nfa
    nfa.Discovers (some nfa.last) g.Edge g.size ∧
      ((∀ i, g.accepts i = false) ↔ ∀ w, w ∉ g.accepted) ∧
      ((∀ i, g.accepts i = false) → g.edges = #[[]] ∧ g.accepting = #[false]) ∧
      (g.accepts 0 = true ↔ [] ∈ g.accepted) := by
  refine ⟨fun accept => ⟨ends_exploreSubsets nfa accept, size_nodes_le nfa accept, ?_, ?_⟩,
    fun catalog failPolicy eofAction dfa h => ⟨discovers_compile h, isEmpty_compile_iff h, ?_, ?_⟩,
    Recognizer.discovers_ofNfa nfa, Recognizer.forall_accepts_eq_false_iff nfa, ?_, ?_⟩
  · intro set hset
    exact List.pairwise_lt_range.sublist (sublist_of_mem_nodes hset)
  · intro i j set set' hi hj hsame
    obtain rfl := eq_of_same_members (sublist_of_mem_nodes (Array.mem_of_getElem? hi))
      (sublist_of_mem_nodes (Array.mem_of_getElem? hj)) hsame
    exact (nfa.exploreSubsets accept).roster.number_unique hi hj
  · intro hempty
    exact ⟨states_eq_of_isEmpty h hempty, Dfa.result_ne_matched (Dfa.isEmpty_iff.1 hempty)⟩
  · rw [Dfa.matchWhole?_eq, Dfa.matchesEmpty, Option.isSome_iff_exists]
    exact Iff.rfl
  · intro hnone
    rw [Recognizer.ofNfa_eq_nothing hnone]
    exact ⟨rfl, rfl⟩
  · rw [Recognizer.mem_accepted]
    constructor
    · intro haccept
      exact ⟨0, .nil 0, haccept⟩
    · rintro ⟨i, hi, haccept⟩
      obtain rfl := trail_row_nil.1 hi
      exact haccept

/-- A text without an action has states of its own for the work list, but none of them is left. -/
theorem subsets_discovered_literal :
    let catalog : Catalog := ⟨fun _ => 0, fun _ _ => .clash, fun a => [a], fun _ => ""⟩
    ∃ dfa, (literal {} "ab").compile catalog .copy none = .ok dfa ∧ dfa.isEmpty = true ∧
      dfa.states = #[{}] := by
  intro catalog
  have hnone : ∀ w, (literal {} "ab").resolution catalog w = ⟨none, []⟩ :=
    fun w => resolution_eq_none ((silent_literal {} "ab").actions_eq w)
  obtain ⟨dfa, hdfa⟩ : ∃ dfa, (literal {} "ab").compile catalog .copy none = .ok dfa := by
    refine exists_compile_iff.2 ?_
    rintro ⟨w, hw⟩
    rw [hnone] at hw
    exact hw rfl
  obtain ⟨-, hcompiled, -⟩ := subsets_discovered (literal {} "ab")
  obtain ⟨-, hempty, hsingle, -⟩ := hcompiled catalog .copy none dfa hdfa
  have hisEmpty : dfa.isEmpty = true := hempty.2 fun text => by
    rw [matchWhole?_compile hdfa, hnone]
  exact ⟨dfa, hdfa, hisEmpty, (hsingle hisEmpty).1⟩

end Nfa

end LongestMatch
