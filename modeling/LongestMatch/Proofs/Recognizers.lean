import LongestMatch.Proofs.Compiled
import LongestMatch.Recognizer

/-!
# Languages of recognizers

`Recognizer.accepted` is the language of a recognizer. The recognizer made of an automaton accepts
what the automaton recognizes (`accepted_ofNfa`), and each operation on the graph does to the
language what it is for:

* `accepted_complete_flip` — completing and exchanging the states gives the complement.
* `accepted_stopAtAccepting` — only the shortest texts are left.
* `acceptedFrom_prune` — dropping edges to dead states changes nothing, wherever one begins.
* `accepted_acceptReachable_prune` — in a pruned graph, what can be read is what can be completed.

All of them keep the graph `Sound`: rows sorted, and no edge to a state that does not exist.
-/

namespace LongestMatch

open Transition (Leads Sorted)

namespace Recognizer

variable {g : Recognizer} {i j : Nat} {c : Char} {w : List Char}

/-- The edges of a recognizer. -/
def Edge (g : Recognizer) : Nat → Option Char → Nat → Prop :=
  RowEdge g.edges

/-- The texts that lead from a state to an accepting one. -/
def acceptedFrom (g : Recognizer) (i : Nat) : Language Char :=
  {w | ∃ j, Trail g.Edge i w j ∧ g.accepts j = true}

/-- The texts that lead from state 0 to an accepting state. -/
def accepted (g : Recognizer) : Language Char :=
  {w | ∃ i, Trail g.Edge 0 w i ∧ g.accepts i = true}

/-- No edge leads to a state that does not exist. -/
def InRange (g : Recognizer) : Prop :=
  ∀ i, ∀ t ∈ g.edgesOf i, t.target < g.size

/-- What every graph here keeps to. -/
structure Sound (g : Recognizer) : Prop where
  size_accepting : g.accepting.size = g.size
  size_pos : 0 < g.size
  sorted : ∀ i, Sorted (g.edgesOf i)
  target_lt : ∀ i, ∀ t ∈ g.edgesOf i, t.target < g.size

theorem edge_iff : g.Edge i (some c) j ↔ Leads (g.edgesOf i) c j :=
  Iff.rfl

theorem mem_accepted : w ∈ g.accepted ↔ ∃ i, Trail g.Edge 0 w i ∧ g.accepts i = true :=
  Iff.rfl

theorem edgesOf_eq_nil (h : g.size ≤ i) : g.edgesOf i = [] := by
  rw [edgesOf, Array.getD_eq_getD_getElem?, Array.getElem?_eq_none h]
  rfl

theorem edgesOf_eq_getElem (h : i < g.edges.size) : g.edgesOf i = g.edges[i] := by
  simp [edgesOf, Array.getD_eq_getD_getElem?, h]

theorem accepts_eq_false (h : g.accepting.size ≤ i) : g.accepts i = false := by
  rw [accepts, Array.getD_eq_getD_getElem?, Array.getElem?_eq_none h]
  rfl

theorem Edge.lt_size {l : Option Char} (e : g.Edge i l j) : i < g.size := by
  cases l with
  | none => exact e.elim
  | some c =>
    by_contra hi
    obtain ⟨t, ht, -⟩ := edge_iff.1 e
    rw [edgesOf_eq_nil (by omega)] at ht
    cases ht

theorem Sound.edge_lt {l : Option Char} (h : g.Sound) (e : g.Edge i l j) : j < g.size := by
  cases l with
  | none => exact e.elim
  | some c =>
    obtain ⟨t, ht, -, rfl⟩ := edge_iff.1 e
    exact h.target_lt i t ht

theorem Sound.trail_lt (h : g.Sound) (ht : Trail g.Edge i w j) (hi : i < g.size) : j < g.size :=
  ht.invariant (P := fun k => k < g.size) (fun _ _ _ _ e => h.edge_lt e) hi

/-- A text leads to one state at most. -/
theorem Sound.trail_unique (h : g.Sound) {k : Nat} (hj : Trail g.Edge i w j)
    (hk : Trail g.Edge i w k) : j = k := by
  -- no edge is silent, so both trails take the same characters one by one
  induction hj with
  | nil =>
    cases hk with
    | nil => rfl
    | silent e => exact e.elim
  | silent e => exact e.elim
  | char e _ ih =>
    cases hk with
    | silent e' => exact e'.elim
    | char e' t' =>
      obtain rfl := (h.sorted _).leads_unique (edge_iff.1 e) (edge_iff.1 e')
      exact ih t'

/-! ## From an automaton -/

theorem acceptsSet_keptAt {nfa : Nfa} (hlast : nfa.last < nfa.states.size) :
    acceptsSet nfa (nfa.keptAt (some nfa.last) w) = true ↔ w ∈ nfa.recognized := by
  rw [acceptsSet, List.any_eq_true]
  constructor
  · intro h
    obtain ⟨q, hq, haccept⟩ := h
    obtain ⟨⟨-, hreach⟩, -⟩ := Nfa.mem_keptAt.1 hq
    rw [Bool.or_eq_true, beq_iff_eq] at haccept
    exact ⟨q, hreach, haccept⟩
  · intro h
    obtain ⟨q, hreach, haccept⟩ := h
    have hq : q < nfa.states.size ∧ nfa.isKept (some nfa.last) q = true := by
      rcases haccept with rfl | haccept
      · exact ⟨hlast, by simp [Nfa.isKept]⟩
      · obtain ⟨a, ha⟩ := Option.isSome_iff_exists.1 haccept
        exact ⟨Nfa.lt_size_of_action ha, Nfa.isKept_of_action ha⟩
    exact ⟨q, Nfa.mem_keptAt.2 ⟨⟨hq.1, hreach⟩, hq.2⟩, by rwa [Bool.or_eq_true, beq_iff_eq]⟩

/-- The rows that are read back from the tables are those of the graph. -/
theorem ofNfa_eq (nfa : Nfa) : ofNfa nfa =
    if ((nfa.exploreSubsets (some nfa.last)).nodes.map (acceptsSet nfa)).any id then
      ⟨nfa.graph (some nfa.last), (nfa.exploreSubsets (some nfa.last)).nodes.map (acceptsSet nfa)⟩
    else nothing := by
  rw [ofNfa, Nfa.map_rowOf]

theorem accepted_nothing : w ∉ nothing.accepted := by
  intro h
  obtain ⟨i, -, hi⟩ := h
  rcases i with _ | i
  · cases hi
  · cases hi

/-- The recognizer of an automaton accepts what the automaton recognizes. -/
theorem accepted_ofNfa {nfa : Nfa} (hlast : nfa.last < nfa.states.size) :
    (ofNfa nfa).accepted = nfa.recognized := by
  ext w
  -- where a text leads to, there is the set of the states that are kept of it
  have hnode : ∀ i, Trail (RowEdge (nfa.graph (some nfa.last))) 0 w i →
      ((nfa.exploreSubsets (some nfa.last)).nodes.map (acceptsSet nfa)).getD i false =
        acceptsSet nfa (nfa.keptAt (some nfa.last) w) := by
    intro i hi
    rw [Array.getD_eq_getD_getElem?, Array.getElem?_map, (Nfa.node_of_trail hi).1]
    rfl
  have hexists : w ∈ nfa.recognized →
      ∃ i, Trail (RowEdge (nfa.graph (some nfa.last))) 0 w i := by
    intro hw
    apply Nfa.exists_trail
    intro hnil
    have := (acceptsSet_keptAt hlast).2 hw
    rw [hnil] at this
    cases this
  rw [ofNfa_eq]
  split
  · constructor
    · intro h
      obtain ⟨i, hi, haccept⟩ := h
      rw [accepts, hnode i hi] at haccept
      exact (acceptsSet_keptAt hlast).1 haccept
    · intro hw
      obtain ⟨i, hi⟩ := hexists hw
      refine ⟨i, hi, ?_⟩
      rw [accepts, hnode i hi]
      exact (acceptsSet_keptAt hlast).2 hw
  · next hnone =>
    -- no set accepts, so no text is recognized
    refine iff_of_false accepted_nothing fun hw => hnone ?_
    obtain ⟨i, hi⟩ := hexists hw
    rw [Array.any_eq_true]
    obtain ⟨hlt, hget⟩ := Array.getElem?_eq_some_iff.1 (Nfa.node_of_trail hi).1
    refine ⟨i, by rwa [Array.size_map], ?_⟩
    rw [Array.getElem_map, hget]
    exact (acceptsSet_keptAt hlast).2 hw

theorem sound_nothing : nothing.Sound := by
  have hnil : ∀ i, nothing.edgesOf i = [] := by
    intro i
    rcases i with _ | i
    · rfl
    · rfl
  exact ⟨rfl, Nat.one_pos, fun i => hnil i ▸ Transition.sorted_nil, fun i t ht => by
    rw [hnil] at ht
    cases ht⟩

theorem sound_ofNfa (nfa : Nfa) : (ofNfa nfa).Sound := by
  rw [ofNfa_eq]
  split
  · obtain ⟨hsound, hsize⟩ := Nfa.sound_exploreSubsets nfa (some nfa.last)
    have hgraph : (nfa.graph (some nfa.last)).size =
      (nfa.exploreSubsets (some nfa.last)).nodes.size := Nfa.size_graph
    refine ⟨?_, ?_, fun i => Nfa.sorted_graph i, fun i t ht => ?_⟩
    · rw [Array.size_map]
      exact hgraph.symm
    · obtain ⟨hpos, -⟩ := Array.getElem?_eq_some_iff.1 hsound.root_eq
      exact hpos.trans_eq hgraph.symm
    · -- an edge is no empty range, so it leads to a set that has a number
      have hsorted : Sorted ((nfa.graph (some nfa.last)).getD i []) := Nfa.sorted_graph i
      have hedge : RowEdge (nfa.graph (some nfa.last)) i (some t.lo) t.target :=
        hsorted.leads_lo ht
      obtain ⟨-, -, next, hnext, -⟩ := Nfa.rowEdge_graph.1 hedge
      obtain ⟨hlt, -⟩ := Array.getElem?_eq_some_iff.1 hnext
      exact hlt.trans_eq hgraph.symm
  · exact sound_nothing

/-! ## Complement -/

theorem size_complete : g.complete.size = g.size + 1 := by
  simp [complete, size]

theorem edgesOf_complete (hi : i < g.size) : g.complete.edgesOf i =
    ((Intervals.ofTransitions (g.edgesOf i)).fillUnset g.size).toTransitions := by
  have hi' : i < g.edges.size := hi
  rw [edgesOf, complete, Array.getD_eq_getD_getElem?]
  simp [Array.getElem?_push, hi', Nat.ne_of_lt hi', edgesOf_eq_getElem hi']

theorem edgesOf_complete_sink :
    g.complete.edgesOf g.size = (Intervals.unset.overwrite 0 maxCode g.size).toTransitions := by
  rw [edgesOf, complete, Array.getD_eq_getD_getElem?, Array.getElem?_push, if_pos (by simp [size])]
  rfl

theorem accepts_complete : g.complete.accepts i = g.accepts i := by
  simp only [accepts, complete, Array.getD_eq_getD_getElem?, Array.getElem?_push]
  split
  · next h =>
    rw [Array.getElem?_eq_none (by omega)]
    rfl
  · rfl

/-- Where a character leads nowhere, the completed graph leads to the sink. -/
theorem edge_complete (h : g.Sound) (hi : i < g.size) : g.complete.Edge i (some c) j ↔
    g.Edge i (some c) j ∨ (∀ k, ¬g.Edge i (some c) k) ∧ j = g.size := by
  have hv := Intervals.valid_ofTransitions (g.edgesOf i)
  have hget : ∀ k, (Intervals.ofTransitions (g.edgesOf i)).get c.toNat = some k ↔
      g.Edge i (some c) k := fun k => Intervals.get_ofTransitions (h.sorted i)
  rw [edge_iff, edgesOf_complete hi, Intervals.leads_toTransitions (hv.fillUnset _),
    hv.get_fillUnset, Option.some.injEq]
  rcases hcode : (Intervals.ofTransitions (g.edgesOf i)).get c.toNat with _ | k
  · have hnone : ∀ k, ¬g.Edge i (some c) k := fun k hk => by
      rw [(hget k).2 hk] at hcode
      cases hcode
    simp only [Option.getD_none, hnone, false_or, not_false_eq_true, implies_true, true_and]
    exact eq_comm
  · have hk := (hget k).1 hcode
    rw [Option.getD_some]
    constructor
    · intro heq
      obtain rfl := heq
      exact .inl hk
    · intro h'
      rcases h' with hj | ⟨hnone, -⟩
      · exact (h.sorted i).leads_unique hk hj
      · exact absurd hk (hnone k)

theorem edge_complete_sink : g.complete.Edge g.size (some c) j ↔ j = g.size := by
  have hv := (Intervals.valid_unset (α := Nat)).overwrite 0 maxCode g.size
  rw [edge_iff, edgesOf_complete_sink, Intervals.leads_toTransitions hv,
    Intervals.valid_unset.get_overwrite _ _ _ (Char.toNat_le_maxCode c),
    if_pos ⟨Nat.zero_le _, Char.toNat_le_maxCode c⟩, Option.some.injEq]
  exact eq_comm

theorem sound_complete (h : g.Sound) : g.complete.Sound := by
  have hsorted : ∀ i, Sorted (g.complete.edgesOf i) := by
    intro i
    rcases Nat.lt_trichotomy i g.size with hi | rfl | hi
    · rw [edgesOf_complete hi]
      exact Intervals.sorted_toTransitions ((Intervals.valid_ofTransitions _).fillUnset _)
    · rw [edgesOf_complete_sink]
      exact Intervals.sorted_toTransitions (Intervals.valid_unset.overwrite _ _ _)
    · rw [edgesOf_eq_nil (by rw [size_complete]; omega)]
      exact Transition.sorted_nil
  refine ⟨?_, by rw [size_complete]; omega, hsorted, fun i t ht => ?_⟩
  · rw [size_complete, complete, Array.size_push, h.size_accepting]
  · have hedge : g.complete.Edge i (some t.lo) t.target := (hsorted i).leads_lo ht
    have hi := hedge.lt_size
    rw [size_complete] at hi ⊢
    rcases Nat.lt_or_ge i g.size with hlt | hge
    · rcases (edge_complete h hlt).1 hedge with hold | ⟨-, htarget⟩
      · exact Nat.lt_succ_of_lt (h.edge_lt hold)
      · omega
    · obtain rfl : i = g.size := by omega
      rw [edge_complete_sink.1 hedge]
      omega

/-- Every text can be read in a completed graph. -/
theorem exists_trail_complete (h : g.Sound) (w : List Char) (hi : i < g.complete.size) :
    ∃ j, Trail g.complete.Edge i w j := by
  induction w generalizing i with
  | nil => exact ⟨i, .nil i⟩
  | cons c w ih =>
    obtain ⟨k, hk⟩ : ∃ k, g.complete.Edge i (some c) k := by
      rw [size_complete] at hi
      rcases Nat.lt_or_ge i g.size with hlt | hge
      · by_cases hsome : ∃ k, g.Edge i (some c) k
        · obtain ⟨k, hk⟩ := hsome
          exact ⟨k, (edge_complete h hlt).2 (.inl hk)⟩
        · exact ⟨g.size, (edge_complete h hlt).2 (.inr ⟨not_exists.1 hsome, rfl⟩)⟩
      · obtain rfl : i = g.size := by omega
        exact ⟨g.size, edge_complete_sink.2 rfl⟩
    obtain ⟨j, hj⟩ := ih ((sound_complete h).edge_lt hk)
    exact ⟨j, .char hk hj⟩

/-- Trails that do not end in the sink are those of the graph itself. -/
theorem trail_complete (h : g.Sound) (hi : i < g.size) (hj : j ≠ g.size) :
    Trail g.complete.Edge i w j ↔ Trail g.Edge i w j := by
  constructor
  · intro ht
    induction ht with
    | nil => exact .nil _
    | silent e => exact e.elim
    | char e t ih =>
      rcases (edge_complete h hi).1 e with hold | ⟨-, rfl⟩
      · exact .char hold (ih (h.edge_lt hold) hj)
      · -- the sink cannot be left
        refine absurd (t.invariant (P := fun k => k = g.size) (fun p l q hp e => ?_) rfl) hj
        subst hp
        cases l with
        | none => exact e.elim
        | some c => exact edge_complete_sink.1 e
  · intro ht
    refine ht.map_edges (P := fun k => k < g.size) (fun p l q hp e => ?_) hi
    cases l with
    | none => exact e.elim
    | some c => exact ⟨(edge_complete h hp).2 (.inl e), h.edge_lt e⟩

theorem accepted_complete (h : g.Sound) : g.complete.accepted = g.accepted := by
  have hsink : g.complete.accepts g.size = false := by
    rw [accepts_complete]
    exact accepts_eq_false h.size_accepting.le
  ext w
  constructor
  · intro h'
    obtain ⟨i, hi, haccept⟩ := h'
    have hne : i ≠ g.size := by
      intro heq
      obtain rfl := heq
      rw [hsink] at haccept
      cases haccept
    exact ⟨i, (trail_complete h h.size_pos hne).1 hi, accepts_complete ▸ haccept⟩
  · intro h'
    obtain ⟨i, hi, haccept⟩ := h'
    have hne : i ≠ g.size := Nat.ne_of_lt (h.trail_lt hi h.size_pos)
    exact ⟨i, (trail_complete h h.size_pos hne).2 hi, by rwa [accepts_complete]⟩

theorem sound_flip (h : g.Sound) : g.flip.Sound :=
  ⟨by rw [flip, Array.size_map]; exact h.size_accepting, h.size_pos, h.sorted, h.target_lt⟩

theorem accepts_flip (h : g.Sound) (hi : i < g.size) : g.flip.accepts i = !g.accepts i := by
  have hlt : i < g.accepting.size := by rw [h.size_accepting]; exact hi
  simp [accepts, flip, Array.getD_eq_getD_getElem?, hlt]

/-- Exchanging the states of a completed graph gives the complement. -/
theorem accepted_complete_flip (h : g.Sound) (w : List Char) :
    w ∈ g.complete.flip.accepted ↔ w ∉ g.accepted := by
  have hs := sound_complete h
  obtain ⟨i, hi⟩ := exists_trail_complete h w hs.size_pos
  have hlt := hs.trail_lt hi hs.size_pos
  -- the text leads to one state, and to one only
  have honly : ∀ k, Trail g.complete.Edge 0 w k ↔ k = i := by
    intro k
    constructor
    · intro hk
      exact hs.trail_unique hk hi
    · intro heq
      obtain rfl := heq
      exact hi
  rw [← accepted_complete h, mem_accepted, mem_accepted]
  have hflip : ∀ k, Trail g.complete.flip.Edge 0 w k ↔ k = i := honly
  simp only [hflip, honly, exists_eq_left, accepts_flip hs hlt]
  simp

/-! ## Shortest texts -/

theorem edgesOf_stopAtAccepting :
    g.stopAtAccepting.edgesOf i = if g.accepts i then [] else g.edgesOf i := by
  simp only [edgesOf, stopAtAccepting, Array.getD_eq_getD_getElem?, Array.getElem?_mapIdx]
  cases g.edges[i]? with
  | none => simp
  | some ts => rfl

theorem edge_stopAtAccepting :
    g.stopAtAccepting.Edge i (some c) j ↔ g.accepts i = false ∧ g.Edge i (some c) j := by
  rw [edge_iff, edgesOf_stopAtAccepting, edge_iff]
  split
  · next h => simp [h, Transition.leads_nil]
  · next h => simp [h]

theorem sound_stopAtAccepting (h : g.Sound) : g.stopAtAccepting.Sound := by
  have hsize : g.stopAtAccepting.size = g.size := by simp [stopAtAccepting, size]
  refine ⟨by rw [hsize]; exact h.size_accepting, by rw [hsize]; exact h.size_pos, fun i => ?_,
    fun i t ht => ?_⟩
  · rw [edgesOf_stopAtAccepting]
    split
    · exact Transition.sorted_nil
    · exact h.sorted i
  · rw [edgesOf_stopAtAccepting] at ht
    rw [hsize]
    split at ht
    · cases ht
    · exact h.target_lt i t ht

/-- What is read without leaving an accepting state has no accepted beginning. -/
theorem trail_stopAtAccepting (h : g.Sound) : Trail g.stopAtAccepting.Edge 0 w j ↔
    Trail g.Edge 0 w j ∧ ∀ u v, w = u ++ v → v ≠ [] → u ∉ g.accepted := by
  induction w using List.reverseRecOn generalizing j with
  | nil =>
    have hbefore : ∀ u v : List Char, [] = u ++ v → v ≠ [] → u ∉ g.accepted := by
      intro u v huv hv
      exact absurd (List.append_eq_nil_iff.1 huv.symm).2 hv
    rw [and_iff_left hbefore]
    exact trail_row_nil.trans trail_row_nil.symm
  | append_singleton w c ih =>
    constructor
    · intro ht
      obtain ⟨s, hs, e⟩ := trail_row_snoc.1 ht
      obtain ⟨hs, hbefore⟩ := ih.1 hs
      obtain ⟨haccept, e⟩ := edge_stopAtAccepting.1 e
      refine ⟨hs.trans (trail_single e), fun u v huv hv => ?_⟩
      -- a beginning of `w` and one more character is one of `w`, or `w` itself
      rcases List.eq_nil_or_concat v with rfl | ⟨v, d, rfl⟩
      · exact absurd rfl hv
      · rw [List.concat_eq_append, ← List.append_assoc] at huv
        obtain ⟨rfl, -⟩ := List.append_inj' huv rfl
        by_cases hnil : v = []
        · intro h'
          obtain ⟨k, hk, hkacc⟩ := h'
          subst hnil
          rw [List.append_nil] at hs
          rw [h.trail_unique hs hk, hkacc] at haccept
          cases haccept
        · exact hbefore u v rfl hnil
    · intro h'
      obtain ⟨ht, hbefore⟩ := h'
      obtain ⟨s, hs, e⟩ := trail_row_snoc.1 ht
      have hreject : g.accepts s = false := by
        rw [Bool.eq_false_iff]
        exact fun haccept => hbefore w [c] rfl (by simp) ⟨s, hs, haccept⟩
      have hs' : Trail g.stopAtAccepting.Edge 0 w s := by
        refine ih.2 ⟨hs, fun u v huv hv => ?_⟩
        exact hbefore u (v ++ [c]) (by rw [huv, List.append_assoc]) (by simp)
      exact hs'.trans (trail_single (edge_stopAtAccepting.2 ⟨hreject, e⟩))

theorem accepted_stopAtAccepting (h : g.Sound) (w : List Char) :
    w ∈ g.stopAtAccepting.accepted ↔
      w ∈ g.accepted ∧ ∀ u v, w = u ++ v → v ≠ [] → u ∉ g.accepted := by
  have hsame : ∀ i, g.stopAtAccepting.accepts i = g.accepts i := fun _ => rfl
  simp only [mem_accepted, trail_stopAtAccepting h, hsame]
  constructor
  · intro h'
    obtain ⟨i, ⟨hi, hbefore⟩, haccept⟩ := h'
    exact ⟨⟨i, hi, haccept⟩, hbefore⟩
  · intro h'
    obtain ⟨⟨i, hi, haccept⟩, hbefore⟩ := h'
    exact ⟨i, ⟨hi, hbefore⟩, haccept⟩

/-! ## States that can be reached, and states that can be left for an accepting one -/

/-- Some edge leads from one state to another. -/
def Arc (g : Recognizer) (i j : Nat) : Prop :=
  j ∈ (g.edgesOf i).map Transition.target

/-- An accepting state can be reached along edges, if the state is not accepting itself. -/
def Live (g : Recognizer) (i : Nat) : Prop :=
  ∃ j < g.size, g.accepts j = true ∧ Relation.ReflTransGen g.Arc i j

/-- Whatever leads to a live state is live. -/
theorem Live.of_arcs (hlive : g.Live j) (harcs : Relation.ReflTransGen g.Arc i j) : g.Live i := by
  obtain ⟨k, hk, haccept, harcs'⟩ := hlive
  exact ⟨k, hk, haccept, harcs.trans harcs'⟩

theorem arc_iff (h : g.Sound) : g.Arc i j ↔ ∃ c, g.Edge i (some c) j := by
  rw [Arc, List.mem_map]
  constructor
  · intro h'
    obtain ⟨t, ht, rfl⟩ := h'
    exact ⟨t.lo, (h.sorted i).leads_lo ht⟩
  · intro h'
    obtain ⟨c, t, ht, -, rfl⟩ := h'
    exact ⟨t, ht, rfl⟩

theorem arcs_iff (h : g.Sound) :
    Relation.ReflTransGen g.Arc i j ↔ ∃ w, Trail g.Edge i w j := by
  have harc : g.Arc = fun a b => ∃ l, g.Edge a l b := by
    funext a b
    apply propext
    rw [arc_iff h]
    constructor
    · intro h'
      obtain ⟨c, e⟩ := h'
      exact ⟨some c, e⟩
    · intro h'
      obtain ⟨l, e⟩ := h'
      cases l with
      | none => exact e.elim
      | some c => exact ⟨c, e⟩
  rw [exists_trail_iff, harc]

theorem arcs_of_trail (ht : Trail g.Edge i w j) : Relation.ReflTransGen g.Arc i j := by
  induction ht with
  | nil => exact .refl
  | silent e => exact e.elim
  | char e _ ih =>
    obtain ⟨t, ht, -, rfl⟩ := edge_iff.1 e
    exact .head (List.mem_map_of_mem ht) ih

theorem mem_predecessors {p q : Nat} :
    p ∈ g.predecessors.getD q [] ↔ p < g.size ∧ g.Arc p q ∧ q < g.size := by
  have hfold : g.predecessors = (List.range g.size).foldl
      (fun table id => enterAll id table ((g.edgesOf id).map Transition.target))
      (Array.replicate g.size []) := by
    simp only [predecessors, enterAll, List.foldl_map]
  rw [hfold, mem_turnAround fun id => (g.edgesOf id).map Transition.target, List.mem_range]
  rfl

theorem Arc.lt_size (harc : g.Arc i j) : i < g.size := by
  by_contra hi
  rw [Arc, edgesOf_eq_nil (Nat.not_lt.1 hi)] at harc
  cases harc

theorem InRange.arc_lt (h : g.InRange) (harc : g.Arc i j) : j < g.size := by
  obtain ⟨t, ht, rfl⟩ := List.mem_map.1 harc
  exact h i t ht

/-- A path of edges does not leave the graph. -/
theorem InRange.arcs_lt (h : g.InRange) (harcs : Relation.ReflTransGen g.Arc i j)
    (hi : i < g.size) : j < g.size := by
  induction harcs with
  | refl => exact hi
  | tail _ harc _ => exact h.arc_lt harc

/-- The search backwards finds the live states. -/
theorem contains_live_iff (h : g.InRange) : g.live.contains i = true ↔ g.Live i := by
  have hlink : StateSet.Link g.size (fun id => g.predecessors.getD id []) =
      Function.swap g.Arc := by
    funext q p
    apply propext
    rw [StateSet.Link, mem_predecessors]
    show _ ↔ g.Arc p q
    constructor
    · intro h'
      obtain ⟨⟨-, harc, -⟩, -⟩ := h'
      exact harc
    · intro harc
      exact ⟨⟨harc.lt_size, harc, h.arc_lt harc⟩, harc.lt_size⟩
  rw [live, StateSet.contains_reach, hlink]
  simp only [Relation.reflTransGen_swap, List.mem_filter, List.mem_range]
  constructor
  · intro h'
    obtain ⟨j, ⟨hlt, haccept⟩, -, harcs⟩ := h'
    exact ⟨j, hlt, haccept, harcs⟩
  · intro h'
    obtain ⟨j, hlt, haccept, harcs⟩ := h'
    exact ⟨j, ⟨hlt, haccept⟩, hlt, harcs⟩

/-- The live states are those from which a text leads to an accepting state. -/
theorem contains_live (h : g.Sound) : g.live.contains i = true ↔
    ∃ w j, Trail g.Edge i w j ∧ g.accepts j = true ∧ j < g.size := by
  rw [contains_live_iff h.target_lt, Live]
  simp only [arcs_iff h]
  constructor
  · intro h'
    obtain ⟨j, hlt, haccept, w, hw⟩ := h'
    exact ⟨w, j, hw, haccept, hlt⟩
  · intro h'
    obtain ⟨w, j, hw, haccept, hlt⟩ := h'
    exact ⟨j, hlt, haccept, w, hw⟩

theorem edgesOf_prune :
    g.prune.edgesOf i = (g.edgesOf i).filter fun t => g.live.contains t.target := by
  simp only [edgesOf, prune, Array.getD_eq_getD_getElem?, Array.getElem?_map]
  cases g.edges[i]? <;> rfl

theorem size_prune : g.prune.size = g.size := by
  simp [prune, size]

theorem edge_prune : g.prune.Edge i (some c) j ↔
    g.Edge i (some c) j ∧ g.live.contains j = true := by
  rw [edge_iff, edgesOf_prune, edge_iff]
  constructor
  · intro h
    obtain ⟨t, ht, hc, rfl⟩ := h
    obtain ⟨ht, hlive⟩ := List.mem_filter.1 ht
    exact ⟨⟨t, ht, hc, rfl⟩, hlive⟩
  · intro h
    obtain ⟨⟨t, ht, hc, rfl⟩, hlive⟩ := h
    exact ⟨t, List.mem_filter.2 ⟨ht, hlive⟩, hc, rfl⟩

theorem sound_prune (h : g.Sound) : g.prune.Sound := by
  refine ⟨by rw [size_prune]; exact h.size_accepting, by rw [size_prune]; exact h.size_pos,
    fun i => ?_, fun i t ht => ?_⟩
  · rw [edgesOf_prune]
    exact (h.sorted i).filter _
  · rw [edgesOf_prune] at ht
    rw [size_prune]
    exact h.target_lt i t (List.mem_filter.1 ht).1

theorem trail_of_prune (ht : Trail g.prune.Edge i w j) : Trail g.Edge i w j :=
  ht.mono fun p l q e => by
    cases l with
    | none => exact e.elim
    | some c => exact (edge_prune.1 e).1

/-- Trails that can be completed to an accepting state are kept. -/
theorem trail_prune (h : g.InRange) (ht : Trail g.Edge i w j)
    (hlive : g.live.contains j = true) : Trail g.prune.Edge i w j := by
  induction ht with
  | nil => exact .nil _
  | silent e => exact e.elim
  | char e t ih =>
    -- the rest of the trail and its completion lead from here to an accepting state
    refine .char (edge_prune.2 ⟨e, ?_⟩) (ih hlive)
    have hend : g.Live _ := (contains_live_iff h).1 hlive
    exact (contains_live_iff h).2 (hend.of_arcs (arcs_of_trail t))

/-- Pruning takes no text away from any state, and adds none. -/
theorem acceptedFrom_prune (h : g.InRange) (i : Nat) :
    g.prune.acceptedFrom i = g.acceptedFrom i := by
  have hsame : ∀ j, g.prune.accepts j = g.accepts j := fun _ => rfl
  ext w
  constructor
  · intro h'
    obtain ⟨j, ht, haccept⟩ := h'
    exact ⟨j, trail_of_prune ht, haccept⟩
  · intro h'
    obtain ⟨j, ht, haccept⟩ := h'
    refine ⟨j, ?_, haccept⟩
    cases ht with
    | nil => exact .nil _
    | silent e => exact e.elim
    | @char _ k _ c _ e t =>
      obtain ⟨u, hu, -, rfl⟩ := edge_iff.1 e
      have hj : j < g.size := h.arcs_lt (arcs_of_trail t) (h i u hu)
      exact trail_prune h (.char e t) ((contains_live_iff h).2 ⟨j, hj, haccept, .refl⟩)

theorem accepted_prune (h : g.Sound) : g.prune.accepted = g.accepted :=
  acceptedFrom_prune h.target_lt 0

/-! ## Prefixes -/

theorem sound_acceptReachable (h : g.Sound) : g.acceptReachable.Sound :=
  ⟨by rw [acceptReachable, Array.size_mapIdx]; exact h.size_accepting, h.size_pos, h.sorted,
    h.target_lt⟩

theorem accepted_acceptReachable (h : g.Sound) :
    w ∈ g.acceptReachable.accepted ↔ ∃ i, Trail g.Edge 0 w i := by
  have hlink : StateSet.Link g.size (fun id => (g.edgesOf id).map Transition.target) = g.Arc := by
    funext p q
    exact propext (and_iff_left_of_imp fun harc => InRange.arc_lt h.target_lt harc)
  constructor
  · intro h'
    obtain ⟨i, hi, -⟩ := h'
    exact ⟨i, hi⟩
  · intro h'
    obtain ⟨i, hi⟩ := h'
    refine ⟨i, hi, ?_⟩
    have hlt : i < g.accepting.size := by rw [h.size_accepting]; exact h.trail_lt hi h.size_pos
    have hseen : ((StateSet.empty g.size).reach
        (fun id => (g.edgesOf id).map Transition.target) [0]).contains i = true := by
      rw [StateSet.contains_reach, hlink]
      exact ⟨0, List.mem_singleton.2 rfl, h.size_pos, (arcs_iff h).2 ⟨w, hi⟩⟩
    simp [accepts, acceptReachable, Array.getD_eq_getD_getElem?, hlt, hseen]

/-- In a pruned graph, what can be read, if not empty, can be completed to an accepted text. -/
theorem accepted_acceptReachable_prune (h : g.Sound) (hw : w ≠ []) :
    w ∈ g.prune.acceptReachable.accepted ↔ ∃ v, w ++ v ∈ g.accepted := by
  rw [accepted_acceptReachable (sound_prune h)]
  constructor
  · intro h'
    obtain ⟨i, hi⟩ := h'
    -- the last edge leads to a live state, from which the text can be completed
    obtain ⟨u, c, rfl⟩ := List.eq_nil_or_concat w |>.resolve_left hw
    rw [List.concat_eq_append] at hi ⊢
    obtain ⟨s, hs, e⟩ := trail_row_snoc.1 hi
    obtain ⟨v, j, hj, haccept, -⟩ := (contains_live h).1 (edge_prune.1 e).2
    exact ⟨v, j, (trail_of_prune hi).trans hj, haccept⟩
  · intro h'
    obtain ⟨v, j, hj, haccept⟩ := h'
    obtain ⟨i, hi, hv⟩ := trail_append.1 hj
    have hlt := h.trail_lt hj h.size_pos
    exact ⟨i, trail_prune h.target_lt hi ((contains_live h).2 ⟨v, j, hv, haccept, hlt⟩)⟩

end Recognizer

end LongestMatch
