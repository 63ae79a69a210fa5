import LongestMatch.Dfa.Compile
import LongestMatch.Proofs.Matching
import LongestMatch.Proofs.Subsets
import LongestMatch.Proofs.Tables

/-!
# Compiling gives each text the action that it deserves

A text leads an automaton to several states, and their actions are resolved to one.
`actionFrom_compile` says that the compiled automaton assigns exactly this action to the text,
whatever tables and sets it goes through; `compile_error_iff` says that compiling fails exactly if
the actions of some text clash.
-/

namespace LongestMatch

/-! ## Resolving actions in turn -/

namespace Resolution

/-- What a list of actions comes to if they are met in this order. -/
def folded (catalog : Catalog) : List ActionId → Resolution
  | [] => ⟨none, []⟩
  | first :: others =>
    let result := others.foldl (meet catalog) (first, [])
    ⟨some result.1, result.2⟩

/-- The order is that of a stable sort by descending priority. -/
structure InTurn (catalog : Catalog) (actions order : List ActionId) : Prop where
  perm : order.Perm actions
  descending : order.Pairwise fun a b => catalog.priority b ≤ catalog.priority a
  stable : ∀ a b, catalog.priority b ≤ catalog.priority a →
    [a, b].Sublist actions → [a, b].Sublist order

theorem inTurn_byPriority (catalog : Catalog) (actions : List ActionId) :
    InTurn catalog actions (byPriority catalog actions) := by
  have htrans : ∀ a b c : ActionId, decide (catalog.priority b ≤ catalog.priority a) = true →
      decide (catalog.priority c ≤ catalog.priority b) = true →
      decide (catalog.priority c ≤ catalog.priority a) = true := by
    intro a b c hab hbc
    rw [decide_eq_true_eq] at hab hbc ⊢
    exact le_trans hbc hab
  have htotal : ∀ a b : ActionId, (decide (catalog.priority b ≤ catalog.priority a) ||
      decide (catalog.priority a ≤ catalog.priority b)) = true := by
    intro a b
    rw [Bool.or_eq_true, decide_eq_true_eq, decide_eq_true_eq]
    exact le_total _ _
  refine ⟨List.mergeSort_perm _ _, ?_, fun a b hab hsub => ?_⟩
  · exact (List.pairwise_mergeSort htrans htotal actions).imp fun h => by
      rwa [decide_eq_true_eq] at h
  · exact List.pair_sublist_mergeSort htrans htotal (by rwa [decide_eq_true_eq]) hsub

theorem ofActions_eq_folded (catalog : Catalog) (actions : List ActionId) :
    ofActions catalog actions = folded catalog (byPriority catalog actions.eraseDups) := by
  unfold ofActions folded
  split <;> simp_all

theorem ofActions_nil (catalog : Catalog) : ofActions catalog [] = ⟨none, []⟩ := by
  simp [ofActions, byPriority]

/-- A single action, however often it is met, comes to itself. -/
theorem ofActions_of_forall_eq (catalog : Catalog) {actions : List ActionId} {a : ActionId}
    (ha : a ∈ actions) (hall : ∀ b ∈ actions, b = a) :
    ofActions catalog actions = ⟨some a, []⟩ := by
  cases actions with
  | nil => cases ha
  | cons b rest =>
    obtain ⟨rfl, hrest⟩ := List.forall_mem_cons.1 hall
    have hfilter : (rest.filter fun c => !c == b) = [] := by
      rw [List.filter_eq_nil_iff]
      intro c hc
      simp [hrest c hc]
    rw [ofActions_eq_folded, List.eraseDups_cons, hfilter, List.eraseDups_nil, byPriority,
      List.mergeSort_singleton]
    rfl

end Resolution

namespace Nfa

variable {nfa : Nfa} {catalog : Catalog}

/-! ## States that closures drop have no action -/

theorem isKept_of_action {accept : Option Nat} {q : Nat} {a : ActionId}
    (h : (nfa.state q).action = some a) : nfa.isKept accept q = true := by
  simp [isKept, State.isImportant, h]

theorem ofSet_keptAt (accept : Option Nat) (w : List Char) :
    Resolution.ofSet catalog nfa (nfa.keptAt accept w) =
      Resolution.ofSet catalog nfa (nfa.reached w) := by
  have hsame : ∀ set : List Nat, (set.filter (nfa.isKept accept)).filterMap
      (fun id => (nfa.state id).action) = set.filterMap fun id => (nfa.state id).action := by
    intro set
    induction set with
    | nil => rfl
    | cons q set ih =>
      rw [List.filter_cons, List.filterMap_cons]
      cases haction : (nfa.state q).action with
      | none =>
        split
        · rw [List.filterMap_cons, haction, ih]
        · exact ih
      | some a =>
        rw [if_pos (isKept_of_action haction), List.filterMap_cons, haction, ih]
  rw [Resolution.ofSet, Resolution.ofSet, keptAt, hsame]

/-- What the actions that a text leads to come to. -/
noncomputable def resolution (nfa : Nfa) (catalog : Catalog) (w : List Char) : Resolution :=
  Resolution.ofSet catalog nfa (nfa.reached w)

/-- The actions to be resolved are those that the text leads to. -/
theorem mem_filterMap_reached {w : List Char} {a : ActionId} :
    a ∈ (nfa.reached w).filterMap (fun id => (nfa.state id).action) ↔ a ∈ nfa.actions w := by
  rw [List.mem_filterMap]
  constructor
  · rintro ⟨q, hq, ha⟩
    exact ⟨q, (mem_reached.1 hq).2, ha⟩
  · rintro ⟨q, hq, ha⟩
    exact ⟨q, mem_reached.2 ⟨lt_size_of_action ha, hq⟩, ha⟩

/-- A text that leads to no action comes to none, and nothing clashes. -/
theorem resolution_eq_none {w : List Char} (h : nfa.actions w = ∅) :
    nfa.resolution catalog w = ⟨none, []⟩ := by
  have hnil : (nfa.reached w).filterMap (fun id => (nfa.state id).action) = [] := by
    apply List.eq_nil_iff_forall_not_mem.2
    intro a ha
    rw [mem_filterMap_reached, h] at ha
    exact ha
  rw [resolution, Resolution.ofSet, hnil, Resolution.ofActions_nil]

/-- A text that leads to one action only comes to it. -/
theorem resolution_eq_some {w : List Char} {a : ActionId} (h : nfa.actions w = {a}) :
    nfa.resolution catalog w = ⟨some a, []⟩ := by
  rw [resolution, Resolution.ofSet]
  apply Resolution.ofActions_of_forall_eq
  · rw [mem_filterMap_reached, h]
    rfl
  · intro b hb
    rw [mem_filterMap_reached, h] at hb
    exact hb

/-- An action does not clash with itself. -/
theorem clashes_resolution_of_forall_eq {w : List Char} {a : ActionId}
    (h : ∀ b ∈ nfa.actions w, b = a) : (nfa.resolution catalog w).clashes = [] := by
  rcases (nfa.actions w).eq_empty_or_nonempty with hnone | ⟨b, hb⟩
  · rw [resolution_eq_none hnone]
  · obtain rfl := h b hb
    have hone : nfa.actions w = {b} := Set.eq_singleton_iff_unique_mem.2 ⟨hb, h⟩
    rw [resolution_eq_some hone]

theorem resolution_of_keptAt_nil {accept : Option Nat} {w : List Char}
    (h : nfa.keptAt accept w = []) : nfa.resolution catalog w = ⟨none, []⟩ := by
  rw [resolution, ← ofSet_keptAt accept, h, Resolution.ofSet]
  exact Resolution.ofActions_nil catalog

/-! ## The sets of the graph are those of the texts -/

/-- The set at a number is that of some text. -/
theorem exists_resolution {set : List Nat} (h : set ∈ (nfa.exploreSubsets none).nodes) :
    ∃ w, Resolution.ofSet catalog nfa set = nfa.resolution catalog w := by
  obtain ⟨i, hi, rfl⟩ := Array.getElem_of_mem h
  obtain ⟨w, hw⟩ := exists_text hi
  have hnode := (node_of_trail hw).1
  rw [Array.getElem?_eq_getElem hi] at hnode
  exact ⟨w, by rw [Option.some.inj hnode, ofSet_keptAt, resolution]⟩

/-- The set of a text is at some number, unless nothing is kept of it. -/
theorem resolution_mem (w : List Char) : nfa.resolution catalog w = ⟨none, []⟩ ∨
    ∃ set ∈ (nfa.exploreSubsets none).nodes,
      Resolution.ofSet catalog nfa set = nfa.resolution catalog w := by
  by_cases hkept : nfa.keptAt none w = []
  · exact .inl (resolution_of_keptAt_nil hkept)
  · obtain ⟨i, hi⟩ := exists_trail hkept
    refine .inr ⟨_, Array.mem_of_getElem? (node_of_trail hi).1, ?_⟩
    rw [ofSet_keptAt, resolution]

/-! ## The compiled states -/

theorem clashesFrom_eq_nil {id : Nat} {rs : List Resolution} :
    clashesFrom id rs = [] ↔ ∀ r ∈ rs, r.clashes = [] := by
  induction rs generalizing id with
  | nil => simp [clashesFrom]
  | cons r rs ih => simp [clashesFrom, ih]

/-- The states with their tables, one for each set. -/
def subsetStates (nfa : Nfa) (catalog : Catalog) : Array DfaState :=
  Array.zipWith (nfa.compiledState catalog) (nfa.exploreSubsets none).nodes
    (nfa.exploreSubsets none).edges

theorem compiledStates_cases (nfa : Nfa) (catalog : Catalog) :
    (∃ clashes, nfa.compiledStates catalog = .error clashes ∧
      ∃ set ∈ (nfa.exploreSubsets none).nodes, (Resolution.ofSet catalog nfa set).clashes ≠ []) ∨
    ((∀ set ∈ (nfa.exploreSubsets none).nodes, (Resolution.ofSet catalog nfa set).clashes = []) ∧
      (nfa.compiledStates catalog = .ok (nfa.subsetStates catalog) ∨
        nfa.compiledStates catalog = .ok (Array.singleton {}) ∧
          ∀ set ∈ (nfa.exploreSubsets none).nodes,
            (Resolution.ofSet catalog nfa set).action = none)) := by
  unfold compiledStates
  simp only
  split
  · next h =>
    have hnone := clashesFrom_eq_nil.1 h
    refine .inr ⟨fun set hset => ?_, ?_⟩
    · exact hnone _ (List.mem_map_of_mem (Array.mem_toList_iff.2 hset))
    · split
      · next hall =>
        refine .inr ⟨rfl, fun set hset => ?_⟩
        rw [List.all_eq_true] at hall
        have := hall _ (List.mem_map_of_mem (Array.mem_toList_iff.2 hset))
        rwa [Option.isNone_iff_eq_none] at this
      · exact .inl rfl
  · next h =>
    refine .inl ⟨_, rfl, ?_⟩
    have hsome := mt clashesFrom_eq_nil.2 h
    push Not at hsome
    obtain ⟨r, hr, hne⟩ := hsome
    obtain ⟨set, hset, rfl⟩ := List.mem_map.1 hr
    exact ⟨set, Array.mem_toList_iff.1 hset, hne⟩

theorem getElem?_subsetStates (i : Nat) :
    (nfa.subsetStates catalog)[i]? =
      (((nfa.exploreSubsets none).nodes)[i]?).bind fun set =>
        ((nfa.exploreSubsets none).edges[i]?).map fun row => nfa.compiledState catalog set row := by
  rw [subsetStates, Array.getElem?_zipWith]
  cases (nfa.exploreSubsets none).nodes[i]? <;> cases (nfa.exploreSubsets none).edges[i]? <;> rfl

section Subset

variable {dfa : Dfa} (h : dfa.states = nfa.subsetStates catalog)

include h

theorem state_subsetStates (i : Nat) :
    (∃ set row, (nfa.exploreSubsets none).nodes[i]? = some set ∧
      (nfa.exploreSubsets none).edges[i]? = some row ∧
      dfa.state i = nfa.compiledState catalog set row) ∨
    (nfa.exploreSubsets none).nodes.size ≤ i ∧ dfa.state i = {} := by
  have hsize := (sound_exploreSubsets nfa none).2
  rw [Dfa.state, h, Array.getD_eq_getD_getElem?, getElem?_subsetStates]
  by_cases hi : i < (nfa.exploreSubsets none).nodes.size
  · refine .inl ⟨_, _, Array.getElem?_eq_getElem hi, Array.getElem?_eq_getElem (by omega), ?_⟩
    simp [hi, hsize]
  · exact .inr ⟨by omega, by simp [hi]⟩

/-- The tables lead where the rows of the graph do. -/
theorem edge_subsetStates (i : Nat) (l : Option Char) (j : Nat) :
    dfa.Edge i l j ↔ RowEdge (nfa.graph none) i l j := by
  cases l with
  | none => exact Iff.rfl
  | some c =>
    rw [Dfa.Edge, RowEdge]
    rcases state_subsetStates h i with ⟨set, row, hset, hrow, heq⟩ | ⟨hi, heq⟩
    · have hget : (nfa.graph none).getD i [] = transitionsOf row := by
        simp [graph, Array.getD_eq_getD_getElem?, hrow]
      have hsorted : Transition.Sorted ((nfa.graph none).getD i []) := sorted_graph i
      rw [hget] at hsorted
      rw [heq, hget, compiledState, tableOf, Table.get_build _ hsorted]
    · rw [heq, Array.getD_eq_getD_getElem?, Array.getElem?_eq_none (by rw [size_graph]; omega)]
      simp [Table.get, Transition.leads_nil]

theorem action_subsetStates {i : Nat} {set : List Nat}
    (hset : (nfa.exploreSubsets none).nodes[i]? = some set) :
    (dfa.state i).action = (Resolution.ofSet catalog nfa set).action := by
  rcases state_subsetStates h i with ⟨set', row, hset', -, heq⟩ | ⟨hi, -⟩
  · obtain rfl : set = set' := Option.some.inj (hset.symm.trans hset')
    rw [heq, compiledState]
  · rw [Array.getElem?_eq_none hi] at hset
    cases hset

/-- An automaton made of these states assigns to a text what the actions that it leads to come to.
-/
theorem actionFrom_subsetStates (w : List Char) :
    dfa.actionFrom 0 w = (nfa.resolution catalog w).action := by
  apply Option.ext
  intro a
  simp only [Dfa.actionFrom_eq_some, trail_congr (edge_subsetStates h)]
  constructor
  · intro h'
    obtain ⟨i, hi, ha⟩ := h'
    rwa [action_subsetStates h (node_of_trail hi).1, ofSet_keptAt] at ha
  · intro ha
    have hkept : nfa.keptAt none w ≠ [] := by
      intro hnil
      rw [resolution_of_keptAt_nil hnil] at ha
      cases ha
    -- something is kept of the text, so the graph has its set
    obtain ⟨i, hi⟩ := exists_trail hkept
    refine ⟨i, hi, ?_⟩
    rw [action_subsetStates h (node_of_trail hi).1, ofSet_keptAt]
    exact ha

end Subset

/-! ## Compiling -/

variable {failPolicy : FailPolicy} {eofAction : Option ActionId}

theorem compile_eq (nfa : Nfa) (catalog : Catalog) (failPolicy : FailPolicy)
    (eofAction : Option ActionId) : nfa.compile catalog failPolicy eofAction =
      (nfa.compiledStates catalog).map fun states => ⟨states, catalog, failPolicy, eofAction⟩ := by
  rw [compile]
  cases nfa.compiledStates catalog <;> rfl

theorem states_compile {dfa : Dfa} (h : nfa.compile catalog failPolicy eofAction = .ok dfa) :
    dfa.states = nfa.subsetStates catalog ∨
      dfa.states = Array.singleton {} ∧
        ∀ set ∈ (nfa.exploreSubsets none).nodes,
          (Resolution.ofSet catalog nfa set).action = none := by
  rw [compile_eq] at h
  rcases compiledStates_cases nfa catalog with ⟨clashes, herr, -⟩ | ⟨-, hok | ⟨hok, hnone⟩⟩
  · rw [herr] at h
    cases h
  · rw [hok] at h
    cases h
    exact .inl rfl
  · rw [hok] at h
    cases h
    exact .inr ⟨rfl, hnone⟩

/-- The states of a compiled automaton are those of the sets, and beyond them there is nothing. -/
theorem state_compile {dfa : Dfa} (h : nfa.compile catalog failPolicy eofAction = .ok dfa)
    (i : Nat) :
    (∃ set row, (nfa.exploreSubsets none).edges[i]? = some row ∧
      dfa.state i = nfa.compiledState catalog set row) ∨ dfa.state i = {} := by
  rcases states_compile h with hstates | ⟨hstates, -⟩
  · rcases state_subsetStates hstates i with ⟨set, row, -, hrow, heq⟩ | ⟨-, heq⟩
    · exact .inl ⟨set, row, hrow, heq⟩
    · exact .inr heq
  · refine .inr ?_
    rw [Dfa.state, hstates]
    rcases i with _ | i
    · rfl
    · rfl

/-- A single state without anything assigns nothing. -/
theorem actionFrom_singleton {dfa : Dfa} (h : dfa.states = Array.singleton {}) (w : List Char) :
    dfa.actionFrom 0 w = none := by
  obtain ⟨states, catalog, failPolicy, eofAction⟩ := dfa
  obtain rfl : states = Array.singleton {} := h
  cases w with
  | nil => rfl
  | cons c w => rfl

/-- The compiled automaton assigns to a text what the actions that it leads to come to. -/
theorem actionFrom_compile {dfa : Dfa}
    (h : nfa.compile catalog failPolicy eofAction = .ok dfa) (w : List Char) :
    dfa.actionFrom 0 w = (nfa.resolution catalog w).action := by
  rcases states_compile h with hstates | ⟨hstates, hnone⟩
  · exact actionFrom_subsetStates hstates w
  · rw [actionFrom_singleton hstates]
    rcases resolution_mem w with heq | ⟨set, hset, heq⟩
    · rw [heq]
    · rw [← heq, hnone set hset]

theorem matchWhole?_compile {dfa : Dfa}
    (h : nfa.compile catalog failPolicy eofAction = .ok dfa) (text : String) :
    dfa.matchWhole? text = (nfa.resolution catalog text.toList).action := by
  rw [Dfa.matchWhole?_eq, actionFrom_compile h]

/-- Compiling fails exactly if the actions that some text leads to clash. -/
theorem compile_error_iff : (∃ clashes, nfa.compile catalog failPolicy eofAction = .error clashes) ↔
    ∃ w, (nfa.resolution catalog w).clashes ≠ [] := by
  rw [compile_eq]
  rcases compiledStates_cases nfa catalog with ⟨clashes, herr, set, hset, hne⟩ | ⟨hclean, hok⟩
  · obtain ⟨w, hw⟩ := exists_resolution hset
    rw [herr]
    exact iff_of_true ⟨clashes, rfl⟩ ⟨w, hw ▸ hne⟩
  · refine iff_of_false ?_ ?_
    · intro h'
      obtain ⟨clashes, h⟩ := h'
      rcases hok with hok | ⟨hok, -⟩
      · rw [hok] at h
        cases h
      · rw [hok] at h
        cases h
    · intro h'
      obtain ⟨w, hne⟩ := h'
      rcases resolution_mem w with heq | ⟨set, hset, heq⟩
      · exact hne (by rw [heq])
      · exact hne (by rw [← heq, hclean set hset])

/-- Compiling succeeds exactly if no actions clash. -/
theorem exists_compile_iff : (∃ dfa, nfa.compile catalog failPolicy eofAction = .ok dfa) ↔
    ¬∃ w, (nfa.resolution catalog w).clashes ≠ [] := by
  have herror : (∃ clashes, nfa.compile catalog failPolicy eofAction = .error clashes) ↔ _ :=
    compile_error_iff
  rw [← herror]
  cases nfa.compile catalog failPolicy eofAction with
  | ok dfa => simp
  | error clashes => simp

theorem catalog_of_compile {dfa : Dfa} (h : nfa.compile catalog failPolicy eofAction = .ok dfa) :
    dfa.catalog = catalog := by
  rw [compile_eq] at h
  cases hstates : nfa.compiledStates catalog with
  | error clashes =>
    rw [hstates] at h
    cases h
  | ok states =>
    rw [hstates] at h
    cases h
    rfl

end Nfa

end LongestMatch
