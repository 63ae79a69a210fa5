import LongestMatch.Nfa.Basic
import LongestMatch.Proofs.Ranges
import Mathlib.Computability.Language

/-!
# Trails through labelled graphs

A `Trail` reads a text along edges, each of which carries a character or is silent. Automata under
construction, recognizers and compiled automata are all read in this way; only their edges differ.

* `trail_append`, `trail_snoc` — a trail is cut where its text is cut.
* `Trail.invariant`, `trail_congr` — what every edge keeps, every trail keeps.
* `trail_embed` — a part that is closed under edges can be renumbered.
* `trail_of_silent`, `trail_of_char` — what is read from a state follows from its edges.

For an automaton, `Nfa.language` is the set of texts that lead from its start to its last state,
`Nfa.actions` the actions that a text leads to, and `Nfa.recognized` the set of texts that lead to
the last state or to an action.
-/

namespace LongestMatch

/-- A text read along edges. The label of an edge is its character, or `none` if it is silent. -/
inductive Trail (edge : Nat → Option Char → Nat → Prop) : Nat → List Char → Nat → Prop where
  | nil (p : Nat) : Trail edge p [] p
  | silent {p q r : Nat} {w : List Char} :
      edge p none q → Trail edge q w r → Trail edge p w r
  | char {p q r : Nat} {c : Char} {w : List Char} :
      edge p (some c) q → Trail edge q w r → Trail edge p (c :: w) r

section Trail

variable {edge edge' : Nat → Option Char → Nat → Prop} {p q r s : Nat} {c : Char}
  {u v w : List Char}

/-! ## Putting trails together and cutting them -/

theorem Trail.trans (h : Trail edge p u q) (h' : Trail edge q v r) : Trail edge p (u ++ v) r := by
  induction h with
  | nil p => exact h'
  | silent e _ ih => exact .silent e (ih h')
  | char e _ ih => exact .char e (ih h')

theorem trail_single (h : edge p (some c) q) : Trail edge p [c] q :=
  .char h (.nil q)

theorem trail_edge (h : edge p none q) : Trail edge p [] q :=
  .silent h (.nil q)

theorem trail_append : Trail edge p (u ++ v) r ↔ ∃ q, Trail edge p u q ∧ Trail edge q v r := by
  constructor
  · intro h
    generalize hw : u ++ v = w at h
    induction h generalizing u with
    | nil p =>
      obtain ⟨rfl, rfl⟩ := List.append_eq_nil_iff.1 hw
      exact ⟨p, .nil p, .nil p⟩
    | silent e _ ih =>
      obtain ⟨q, hq, hv⟩ := ih hw
      exact ⟨q, .silent e hq, hv⟩
    | @char p _ r c w e t ih =>
      rcases List.append_eq_cons_iff.1 hw with ⟨rfl, rfl⟩ | ⟨u, rfl, rfl⟩
      · exact ⟨p, .nil p, .char e t⟩
      · obtain ⟨q, hq, hv⟩ := ih rfl
        exact ⟨q, .char e hq, hv⟩
  · intro h'
    obtain ⟨q, hu, hv⟩ := h'
    exact hu.trans hv

/-- The first character is read at some place, and silent edges come before it. -/
theorem trail_cons : Trail edge p (c :: w) r ↔
    ∃ s t, Trail edge p [] s ∧ edge s (some c) t ∧ Trail edge t w r := by
  constructor
  · intro h
    generalize hw : c :: w = x at h
    induction h with
    | nil => cases hw
    | silent e _ ih =>
      obtain ⟨s, t, hs, rest⟩ := ih hw
      exact ⟨s, t, .silent e hs, rest⟩
    | @char p q r d w' e t _ =>
      cases hw
      exact ⟨p, q, .nil p, e, t⟩
  · intro h'
    obtain ⟨s, t, hs, e, ht⟩ := h'
    exact hs.trans (.char e ht)

/-- The last character is read at some place, and silent edges come after it. -/
theorem trail_snoc : Trail edge p (w ++ [c]) r ↔
    ∃ s t, Trail edge p w s ∧ edge s (some c) t ∧ Trail edge t [] r := by
  rw [trail_append]
  constructor
  · intro h
    obtain ⟨q, hw, hc⟩ := h
    obtain ⟨s, t, hs, rest⟩ := trail_cons.1 hc
    exact ⟨s, t, by simpa using hw.trans hs, rest⟩
  · intro h
    obtain ⟨s, t, hw, e, ht⟩ := h
    exact ⟨s, hw, .char e ht⟩

/-- Without a character the edges are silent. -/
theorem trail_nil_iff :
    Trail edge p [] r ↔ Relation.ReflTransGen (fun a b => edge a none b) p r := by
  constructor
  · intro h
    generalize hw : ([] : List Char) = w at h
    induction h with
    | nil p => exact .refl
    | silent e _ ih => exact .head e (ih hw)
    | char => cases hw
  · intro h
    induction h using Relation.ReflTransGen.head_induction_on with
    | refl => exact .nil r
    | head e _ ih => exact .silent e ih

/-- Some text leads along edges wherever edges lead. -/
theorem exists_trail_iff :
    (∃ w, Trail edge p w r) ↔ Relation.ReflTransGen (fun a b => ∃ l, edge a l b) p r := by
  constructor
  · intro h
    obtain ⟨w, t⟩ := h
    induction t with
    | nil p => exact .refl
    | silent e _ ih => exact .head ⟨none, e⟩ ih
    | char e _ ih => exact .head ⟨some _, e⟩ ih
  · intro h
    induction h using Relation.ReflTransGen.head_induction_on with
    | refl => exact ⟨[], .nil r⟩
    | head e _ ih =>
      obtain ⟨l, e⟩ := e
      obtain ⟨w, t⟩ := ih
      cases l with
      | none => exact ⟨w, .silent e t⟩
      | some c => exact ⟨c :: w, .char e t⟩

/-! ## What trails keep -/

theorem Trail.invariant {P : Nat → Prop} (hP : ∀ p l q, P p → edge p l q → P q)
    (h : Trail edge p w q) (hp : P p) : P q := by
  induction h with
  | nil => exact hp
  | silent e _ ih => exact ih (hP _ _ _ hp e)
  | char e _ ih => exact ih (hP _ _ _ hp e)

/-- Edges that lead on within a part may be exchanged there. -/
theorem Trail.map_edges {P : Nat → Prop} (hP : ∀ p l q, P p → edge p l q → edge' p l q ∧ P q)
    (h : Trail edge p w q) (hp : P p) : Trail edge' p w q := by
  induction h with
  | nil => exact .nil _
  | silent e _ ih => exact .silent (hP _ _ _ hp e).1 (ih (hP _ _ _ hp e).2)
  | char e _ ih => exact .char (hP _ _ _ hp e).1 (ih (hP _ _ _ hp e).2)

theorem Trail.mono (h : ∀ p l q, edge p l q → edge' p l q) (ht : Trail edge p w q) :
    Trail edge' p w q :=
  ht.map_edges (P := fun _ => True) (fun p l q _ e => ⟨h p l q e, trivial⟩) trivial

theorem trail_congr (h : ∀ p l q, edge p l q ↔ edge' p l q) :
    Trail edge p w q ↔ Trail edge' p w q :=
  ⟨.mono fun p l q => (h p l q).1, .mono fun p l q => (h p l q).2⟩

/-- A trail goes nowhere from a state without edges. -/
theorem trail_of_no_edge (h : ∀ l q, ¬edge p l q) : Trail edge p w r ↔ w = [] ∧ r = p := by
  constructor
  · intro ht
    cases ht with
    | nil => exact ⟨rfl, rfl⟩
    | silent e => exact absurd e (h _ _)
    | char e => exact absurd e (h _ _)
  · intro h'
    obtain ⟨rfl, rfl⟩ := h'
    exact .nil _

/-- From a state with silent edges only, a text is read at one of their ends. -/
theorem trail_of_silent {Q : Nat → Prop} (h : ∀ l q, edge p l q ↔ l = none ∧ Q q) :
    Trail edge p w r ↔ (w = [] ∧ r = p) ∨ ∃ q, Q q ∧ Trail edge q w r := by
  constructor
  · intro ht
    cases ht with
    | nil => exact .inl ⟨rfl, rfl⟩
    | silent e t => exact .inr ⟨_, ((h _ _).1 e).2, t⟩
    | char e => cases ((h _ _).1 e).1
  · intro h'
    rcases h' with ⟨rfl, rfl⟩ | ⟨q, hq, ht⟩
    · exact .nil _
    · exact .silent ((h none q).2 ⟨rfl, hq⟩) ht

/-- From a state with a single edge, which is not silent, a trail to another state begins with it.
-/
theorem trail_of_char (h : ∀ l q, edge p l q ↔ l = some c ∧ q = s) (hpr : p ≠ r) :
    Trail edge p w r ↔ ∃ v, w = c :: v ∧ Trail edge s v r := by
  constructor
  · intro t
    cases t with
    | nil => exact absurd rfl hpr
    | silent e => cases ((h _ _).1 e).1
    | char e t =>
      obtain ⟨hc, rfl⟩ := (h _ _).1 e
      cases hc
      exact ⟨_, rfl, t⟩
  · intro hv
    obtain ⟨v, rfl, t⟩ := hv
    exact .char ((h _ _).2 ⟨rfl, rfl⟩) t

/-- From a state all of whose edges lead to a state without any, a trail there is one of them. -/
theorem trail_of_last_edge (h : ∀ l q, edge p l q → q = r) (hr : ∀ l q, ¬edge r l q) (hpr : p ≠ r) :
    Trail edge p w r ↔ ∃ l : Option Char, edge p l r ∧ w = l.toList := by
  constructor
  · intro t
    cases t with
    | nil => exact absurd rfl hpr
    | silent e t =>
      obtain rfl := h _ _ e
      exact ⟨none, e, ((trail_of_no_edge hr).1 t).1⟩
    | @char _ _ _ c _ e t =>
      obtain rfl := h _ _ e
      exact ⟨some c, e, by rw [((trail_of_no_edge hr).1 t).1]; rfl⟩
  · intro hl
    obtain ⟨l, e, rfl⟩ := hl
    cases l with
    | none => exact trail_edge e
    | some c => exact trail_single e

/-- A trail ends in a state without edges into it only if it starts there. -/
theorem Trail.eq_of_no_edge_into (h : Trail edge p w r) (hr : ∀ q l, ¬edge q l r) :
    w = [] ∧ r = p := by
  induction h with
  | nil => exact ⟨rfl, rfl⟩
  | silent e _ ih =>
    obtain ⟨-, rfl⟩ := ih hr
    exact absurd e (hr _ _)
  | char e _ ih =>
    obtain ⟨-, rfl⟩ := ih hr
    exact absurd e (hr _ _)

/-! ## Parts of a graph -/

/-- A part that no edge leaves is read in the same way under other numbers. -/
theorem trail_embed {P : Nat → Prop} {f : Nat → Nat} (closed : ∀ p l q, P p → edge p l q → P q)
    (hf : ∀ p l q', P p → (edge' (f p) l q' ↔ ∃ q, edge p l q ∧ q' = f q)) {r' : Nat}
    (hp : P p) : Trail edge' (f p) w r' ↔ ∃ r, Trail edge p w r ∧ r' = f r := by
  constructor
  · intro h
    generalize hx : f p = x at h
    induction h generalizing p with
    | nil => exact ⟨p, .nil p, hx.symm⟩
    | silent e _ ih =>
      subst hx
      obtain ⟨q, hq, rfl⟩ := (hf _ _ _ hp).1 e
      obtain ⟨r, hr, rfl⟩ := ih (closed _ _ _ hp hq) rfl
      exact ⟨r, .silent hq hr, rfl⟩
    | char e _ ih =>
      subst hx
      obtain ⟨q, hq, rfl⟩ := (hf _ _ _ hp).1 e
      obtain ⟨r, hr, rfl⟩ := ih (closed _ _ _ hp hq) rfl
      exact ⟨r, .char hq hr, rfl⟩
  · intro h'
    obtain ⟨r, h, rfl⟩ := h'
    induction h with
    | nil => exact .nil _
    | silent e _ ih => exact .silent ((hf _ _ _ hp).2 ⟨_, e, rfl⟩) (ih (closed _ _ _ hp e))
    | char e _ ih => exact .char ((hf _ _ _ hp).2 ⟨_, e, rfl⟩) (ih (closed _ _ _ hp e))

end Trail

/-! ## Automata -/

/-- The edges that begin at a state. -/
def State.Edge (s : State) : Option Char → Nat → Prop
  | none, q => q ∈ s.eps
  | some c, q => Transition.Leads s.trans c q

theorem State.edge_of_targets_nil {s : State} {l : Option Char} {q : Nat} (h : s.targets = []) :
    ¬s.Edge l q := by
  intro e
  rw [targets, List.append_eq_nil_iff, List.map_eq_nil_iff] at h
  cases l with
  | none =>
    rw [Edge, h.2] at e
    cases e
  | some c =>
    rw [Edge, h.1] at e
    exact Transition.leads_nil _ _ e

/-- If the transitions are in order, the targets are the ends of the edges. -/
theorem State.mem_targets_iff {s : State} (h : Transition.Sorted s.trans) {q : Nat} :
    q ∈ s.targets ↔ ∃ l, s.Edge l q := by
  rw [targets, List.mem_append, List.mem_map]
  constructor
  · intro hcases
    rcases hcases with ⟨t, ht, rfl⟩ | hq
    · exact ⟨some t.lo, h.leads_lo ht⟩
    · exact ⟨none, hq⟩
  · intro h'
    obtain ⟨l, e⟩ := h'
    cases l with
    | none => exact .inr e
    | some c =>
      obtain ⟨t, ht, -, rfl⟩ := e
      exact .inl ⟨t, ht, rfl⟩

namespace Nfa

variable {nfa : Nfa} {p q : Nat} {c : Char} {w : List Char}

/-- The edges of an automaton. -/
def Edge (nfa : Nfa) (p : Nat) : Option Char → Nat → Prop :=
  (nfa.state p).Edge

/-- The states that a text leads to. -/
def Reaches (nfa : Nfa) (w : List Char) (q : Nat) : Prop :=
  Trail nfa.Edge nfa.start w q

/-- The texts that lead from the start to the last state. -/
def language (nfa : Nfa) : Language Char :=
  {w | nfa.Reaches w nfa.last}

/-- The actions of the states that a text leads to. -/
def actions (nfa : Nfa) (w : List Char) : Set ActionId :=
  {a | ∃ q, nfa.Reaches w q ∧ (nfa.state q).action = some a}

/-- The texts that lead to the last state or to a state with an action. -/
def recognized (nfa : Nfa) : Language Char :=
  {w | ∃ q, nfa.Reaches w q ∧ (q = nfa.last ∨ (nfa.state q).action.isSome)}

theorem mem_language : w ∈ nfa.language ↔ Trail nfa.Edge nfa.start w nfa.last :=
  Iff.rfl

theorem mem_actions {a : ActionId} :
    a ∈ nfa.actions w ↔ ∃ q, Trail nfa.Edge nfa.start w q ∧ (nfa.state q).action = some a :=
  Iff.rfl

theorem mem_recognized : w ∈ nfa.recognized ↔
    ∃ q, Trail nfa.Edge nfa.start w q ∧ (q = nfa.last ∨ (nfa.state q).action.isSome) :=
  Iff.rfl

/-- A text is recognized for leading to the last state or for leading to an action. -/
theorem mem_recognized_iff : w ∈ nfa.recognized ↔ w ∈ nfa.language ∨ (nfa.actions w).Nonempty := by
  constructor
  · intro h'
    obtain ⟨q, hq, rfl | ha⟩ := h'
    · exact .inl hq
    · obtain ⟨a, ha⟩ := Option.isSome_iff_exists.1 ha
      exact .inr ⟨a, q, hq, ha⟩
  · intro hcases
    rcases hcases with h | ⟨a, q, hq, ha⟩
    · exact ⟨_, h, .inl rfl⟩
    · exact ⟨q, hq, .inr (by rw [ha]; rfl)⟩

theorem state_of_size_le (h : nfa.states.size ≤ p) : nfa.state p = {} := by
  rw [state, Array.getD_eq_getD_getElem?, Array.getElem?_eq_none h]
  rfl

/-- Actions belong to states that exist. -/
theorem lt_size_of_action {a : ActionId} (h : (nfa.state p).action = some a) :
    p < nfa.states.size := by
  by_contra hp
  rw [state_of_size_le (by omega)] at h
  cases h

/-- Edges begin at states that exist. -/
theorem Edge.lt_size {l : Option Char} (h : nfa.Edge p l q) : p < nfa.states.size := by
  by_contra hp
  rw [Edge, state_of_size_le (by omega)] at h
  exact State.edge_of_targets_nil rfl h

/-! ## Rules that automata keep -/

/-- The rules on which the operators rely: the two ends exist and differ, edges lead to states that
exist, none leads to the start and none away from the last state, and the start has no action. -/
structure WellFormed (nfa : Nfa) : Prop where
  start_lt : nfa.start < nfa.states.size
  last_lt : nfa.last < nfa.states.size
  start_ne_last : nfa.start ≠ nfa.last
  edge_lt : ∀ p l q, nfa.Edge p l q → q < nfa.states.size
  no_edge_start : ∀ p l, ¬nfa.Edge p l nfa.start
  no_edge_last : ∀ l q, ¬nfa.Edge nfa.last l q
  action_start : (nfa.state nfa.start).action = none
  sorted : ∀ p, Transition.Sorted (nfa.state p).trans

theorem WellFormed.mem_targets (h : nfa.WellFormed) :
    q ∈ (nfa.state p).targets ↔ ∃ l, nfa.Edge p l q :=
  State.mem_targets_iff (h.sorted p)

theorem WellFormed.trail_lt (h : nfa.WellFormed) (t : Trail nfa.Edge p w q)
    (hp : p < nfa.states.size) : q < nfa.states.size :=
  t.invariant (P := fun q => q < nfa.states.size) (fun p l q _ e => h.edge_lt p l q e) hp

/-- Nothing can be read into the start. -/
theorem WellFormed.trail_start (h : nfa.WellFormed) :
    Trail nfa.Edge p w nfa.start ↔ w = [] ∧ nfa.start = p := by
  refine ⟨fun t => t.eq_of_no_edge_into h.no_edge_start, ?_⟩
  intro h'
  obtain ⟨rfl, rfl⟩ := h'
  exact .nil _

/-- Nothing can be read from the last state. -/
theorem WellFormed.trail_last (h : nfa.WellFormed) :
    Trail nfa.Edge nfa.last w q ↔ w = [] ∧ q = nfa.last :=
  trail_of_no_edge h.no_edge_last

theorem WellFormed.no_trail_back (h : nfa.WellFormed) (w : List Char) :
    ¬Trail nfa.Edge nfa.last w nfa.start := by
  intro t
  exact h.start_ne_last (h.trail_last.1 t).2

end Nfa

end LongestMatch
