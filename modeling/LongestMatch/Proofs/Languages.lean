import LongestMatch.Nfa.Language
import LongestMatch.Proofs.Atoms
import LongestMatch.Proofs.Recognizers

/-!
# Operators on languages

Complement, shortest match and prefixes go through a recognizer and back. `mem_language_toNfa` says
that the way back keeps the language; with the results on recognizers that gives the language of
each operator. What comes back has no action and no marker.
-/

namespace LongestMatch

namespace Recognizer

variable {g : Recognizer} {config : Config} {allowEmpty : Bool} {p q : Nat} {l : Option Char}
  {w : List Char}

/-! ## The states of the automaton -/

theorem size_toNfa : (g.toNfa config allowEmpty).states.size = g.size + 2 := by
  simp [toNfa, size]

/-- The state before those of the recognizer. -/
def entry (g : Recognizer) (allowEmpty : Bool) : State :=
  if allowEmpty then { eps := [0] } else { trans := g.edgesOf 0 }

/-- A state of the recognizer, which leads on if it accepts. -/
def inner (g : Recognizer) (p : Nat) : State :=
  { trans := g.edgesOf p, eps := if g.accepts p then [g.size + 1] else [] }

theorem state_toNfa : (g.toNfa config allowEmpty).state p =
    if p < g.size then g.inner p else if p = g.size then g.entry allowEmpty else {} := by
  have hinner : (g.edges.mapIdx fun id ts =>
      ({ trans := ts, eps := if g.accepts id then [g.size + 1] else [] } : State)).size =
        g.size := by
    simp [size]
  rw [toNfa, Nfa.state, Array.getD_eq_getD_getElem?, Array.getElem?_push, Array.getElem?_push,
    Array.size_push, hinner]
  rcases Nat.lt_trichotomy p g.size with hp | hp | hp
  · have hp' : p < g.edges.size := hp
    rw [if_neg (by omega), if_neg (by omega), if_pos hp, Array.getElem?_mapIdx, inner,
      edgesOf_eq_getElem hp', Array.getElem?_eq_getElem hp']
    rfl
  · subst hp
    rw [if_neg (by omega), if_pos rfl, if_neg (Nat.lt_irrefl _), if_pos rfl]
    rfl
  · have hlt : ¬p < g.size := by omega
    have hne : ¬p = g.size := by omega
    simp only [hlt, hne, if_false]
    split
    · rfl
    · rw [Array.getElem?_eq_none (by rw [hinner]; omega)]
      rfl

theorem edge_inner : (g.inner p).Edge l q ↔
    g.Edge p l q ∨ g.accepts p = true ∧ l = none ∧ q = g.size + 1 := by
  cases l with
  | none =>
    have hno : ¬g.Edge p none q := id
    rw [State.Edge, inner]
    split <;> simp_all
  | some c => simp [State.Edge, inner, edge_iff]

theorem lt_of_edge_entry (h : g.Sound) (e : (g.entry allowEmpty).Edge l q) : q < g.size := by
  have hpos := h.size_pos
  cases allowEmpty with
  | true =>
    rw [entry, if_pos rfl, Nfa.edge_of_eps, List.mem_singleton] at e
    omega
  | false =>
    cases l with
    | none => cases e
    | some c =>
      have e : g.Edge 0 (some c) q := e
      exact h.edge_lt e

theorem sorted_entry (h : g.Sound) : Transition.Sorted (g.entry allowEmpty).trans := by
  cases allowEmpty with
  | true => exact Transition.sorted_nil
  | false => exact h.sorted 0

/-- The edges of the automaton: those of the recognizer, the ways out, and the way in. -/
theorem edge_toNfa : (g.toNfa config allowEmpty).Edge p l q ↔
    (g.Edge p l q ∨ p < g.size ∧ g.accepts p = true ∧ l = none ∧ q = g.size + 1) ∨
      p = g.size ∧ (g.entry allowEmpty).Edge l q := by
  rw [Nfa.Edge, state_toNfa]
  rcases Nat.lt_trichotomy p g.size with hp | rfl | hp
  · rw [if_pos hp, edge_inner]
    simp [hp, Nat.ne_of_lt hp]
  · rw [if_neg (Nat.lt_irrefl _), if_pos rfl]
    have hno : ¬g.Edge g.size l q := fun e => absurd e.lt_size (Nat.lt_irrefl _)
    simp [hno]
  · rw [if_neg (by omega), if_neg (by omega)]
    have hno : ¬g.Edge p l q := fun e => by
      have := e.lt_size
      omega
    have hnone : ¬({} : State).Edge l q := State.edge_of_targets_nil rfl
    have hlt : ¬p < g.size := by omega
    simp [hno, hnone, hlt, Nat.ne_of_gt hp]

theorem edge_toNfa_inner (hp : p < g.size) : (g.toNfa config allowEmpty).Edge p l q ↔
    g.Edge p l q ∨ g.accepts p = true ∧ l = none ∧ q = g.size + 1 := by
  rw [edge_toNfa]
  simp [hp, Nat.ne_of_lt hp]

theorem no_edge_toNfa_last : ¬(g.toNfa config allowEmpty).Edge (g.size + 1) l q := by
  rw [Nfa.Edge, state_toNfa, if_neg (by omega), if_neg (by omega)]
  exact State.edge_of_targets_nil rfl

/-! ## What the automaton reads -/

theorem trail_toNfa (h : g.Sound) (hp : p < g.size) :
    Trail (g.toNfa config allowEmpty).Edge p w (g.size + 1) ↔
      ∃ i, Trail g.Edge p w i ∧ g.accepts i = true := by
  refine ⟨fun t => ?_, ?_⟩
  · generalize hr : g.size + 1 = r at t
    induction t with
    | nil => omega
    | silent e t _ =>
      rcases (edge_toNfa_inner hp).1 e with e | ⟨haccept, -, rfl⟩
      · exact e.elim
      · -- the way out has been taken, and there the trail ends
        obtain ⟨rfl, -⟩ := (trail_of_no_edge fun _ _ => no_edge_toNfa_last).1 t
        exact ⟨_, .nil _, haccept⟩
    | char e _ ih =>
      rcases (edge_toNfa_inner hp).1 e with e | ⟨-, hnone, -⟩
      · obtain ⟨i, hi, haccept⟩ := ih (h.edge_lt e) hr
        exact ⟨i, .char e hi, haccept⟩
      · cases hnone
  · intro h'
    obtain ⟨i, hi, haccept⟩ := h'
    have hedge : ∀ p l q, g.Edge p l q → (g.toNfa config allowEmpty).Edge p l q :=
      fun p l q e => edge_toNfa.2 (.inl (.inl e))
    have hout : (g.toNfa config allowEmpty).Edge i none (g.size + 1) :=
      (edge_toNfa_inner (h.trail_lt hi hp)).2 (.inr ⟨haccept, rfl, rfl⟩)
    simpa using (hi.mono hedge).trans (trail_edge hout)

/-- Before the first character the way in is as good as state 0, except that it cannot be left
without a character if the empty text is not allowed. -/
theorem trail_toNfa_entry (h : g.Sound) :
    Trail (g.toNfa config allowEmpty).Edge g.size w (g.size + 1) ↔
      Trail (g.toNfa config allowEmpty).Edge 0 w (g.size + 1) ∧ (allowEmpty = true ∨ w ≠ []) := by
  have hentry : ∀ l q, (g.toNfa config allowEmpty).Edge g.size l q ↔
      (g.entry allowEmpty).Edge l q := by
    intro l q
    rw [Nfa.Edge, state_toNfa, if_neg (Nat.lt_irrefl _), if_pos rfl]
  cases allowEmpty with
  | true =>
    -- a silent edge to state 0 is all there is
    have hsilent : ∀ l q, (g.toNfa config true).Edge g.size l q ↔ l = none ∧ q = 0 := by
      intro l q
      rw [hentry, entry, if_pos rfl, Nfa.edge_of_eps, List.mem_singleton]
    rw [trail_of_silent hsilent]
    simp
  | false =>
    -- the way in has the edges of state 0, but not its way out
    have hfirst : ∀ c q, (g.toNfa config false).Edge g.size (some c) q ↔
        (g.toNfa config false).Edge 0 (some c) q := by
      intro c q
      rw [hentry, edge_toNfa_inner h.size_pos]
      simp [entry, State.Edge, edge_iff]
    have hnone : ∀ q, ¬(g.toNfa config false).Edge g.size none q := by
      intro q e
      rw [hentry] at e
      cases e
    refine ⟨fun t => ?_, fun h' => ?_⟩
    · generalize hr : g.size + 1 = r at t ⊢
      cases t with
      | nil => omega
      | silent e => exact absurd e (hnone _)
      | char e t => exact ⟨.char ((hfirst _ _).1 e) t, .inr (List.cons_ne_nil _ _)⟩
    · obtain ⟨t, hw⟩ := h'
      obtain ⟨i, hi, haccept⟩ := (trail_toNfa h h.size_pos).1 t
      cases hi with
      | nil => simp at hw
      | silent e => exact e.elim
      | char e t' =>
        exact .char ((hfirst _ _).2 ((edge_toNfa_inner h.size_pos).2 (.inl e)))
          ((trail_toNfa h (h.edge_lt e)).2 ⟨i, t', haccept⟩)

/-- Read from start to last, the automaton has the accepted texts. -/
theorem mem_language_toNfa (h : g.Sound) :
    w ∈ (g.toNfa config allowEmpty).language ↔ w ∈ g.accepted ∧ (allowEmpty = true ∨ w ≠ []) := by
  show Trail (g.toNfa config allowEmpty).Edge g.size w (g.size + 1) ↔ _
  rw [trail_toNfa_entry h, trail_toNfa h h.size_pos]
  rfl

/-! ## What the automaton is like -/

theorem blank_toNfa : (g.toNfa config allowEmpty).Blank := by
  intro p
  rw [state_toNfa]
  split
  · rfl
  · split
    · rw [entry]
      split <;> rfl
    · rfl

theorem action_toNfa (p : Nat) : ((g.toNfa config allowEmpty).state p).action = none :=
  blank_toNfa.silent p

theorem marks_toNfa (p : Nat) : ((g.toNfa config allowEmpty).state p).marks = {} :=
  congrArg Prod.snd (blank_toNfa p)

theorem wellFormed_toNfa (h : g.Sound) : (g.toNfa config allowEmpty).WellFormed := by
  have hsize : (g.toNfa config allowEmpty).states.size = g.size + 2 := size_toNfa
  have hpos := h.size_pos
  refine ⟨?_, ?_, ?_, fun p l q e => ?_, fun p l e => ?_, fun l q => no_edge_toNfa_last,
    action_toNfa _, fun p => ?_⟩
  · show g.size < Array.size _
    omega
  · show g.size + 1 < Array.size _
    omega
  · show g.size ≠ g.size + 1
    omega
  · rw [hsize]
    rcases edge_toNfa.1 e with (e | ⟨-, -, -, rfl⟩) | ⟨-, e⟩
    · have := h.edge_lt e
      omega
    · omega
    · have := lt_of_edge_entry h e
      omega
  · replace e : (g.toNfa config allowEmpty).Edge p l g.size := e
    rcases edge_toNfa.1 e with (e | ⟨-, -, -, heq⟩) | ⟨-, e⟩
    · exact absurd (h.edge_lt e) (Nat.lt_irrefl _)
    · omega
    · exact absurd (lt_of_edge_entry h e) (Nat.lt_irrefl _)
  · rw [state_toNfa]
    split
    · exact h.sorted p
    · split
      · exact sorted_entry h
      · exact Transition.sorted_nil

end Recognizer

namespace Nfa

variable {nfa : Nfa} {w : List Char}

/-! ## The operators -/

theorem sound_invert (nfa : Nfa) : (Recognizer.ofNfa nfa).complete.flip.Sound :=
  Recognizer.sound_flip (Recognizer.sound_complete (Recognizer.sound_ofNfa nfa))

theorem wellFormed_invert (nfa : Nfa) : nfa.invert.WellFormed :=
  Recognizer.wellFormed_toNfa (Recognizer.sound_prune (sound_invert nfa))

theorem mem_language_invert (hlast : nfa.last < nfa.states.size) :
    w ∈ nfa.invert.language ↔ w ∉ nfa.recognized := by
  have hsound := sound_invert nfa
  rw [invert, Recognizer.mem_language_toNfa (Recognizer.sound_prune hsound),
    Recognizer.accepted_prune hsound,
    Recognizer.accepted_complete_flip (Recognizer.sound_ofNfa nfa), Recognizer.accepted_ofNfa hlast]
  simp

theorem sound_shortest (nfa : Nfa) : (Recognizer.ofNfa nfa).stopAtAccepting.Sound :=
  Recognizer.sound_stopAtAccepting (Recognizer.sound_ofNfa nfa)

theorem wellFormed_shortest (nfa : Nfa) : nfa.shortest.WellFormed :=
  Recognizer.wellFormed_toNfa (Recognizer.sound_prune (sound_shortest nfa))

theorem mem_language_shortest (hlast : nfa.last < nfa.states.size) :
    w ∈ nfa.shortest.language ↔
      w ∈ nfa.recognized ∧ ∀ u v, w = u ++ v → v ≠ [] → u ∉ nfa.recognized := by
  have hsound := sound_shortest nfa
  rw [shortest, Recognizer.mem_language_toNfa (Recognizer.sound_prune hsound),
    Recognizer.accepted_prune hsound,
    Recognizer.accepted_stopAtAccepting (Recognizer.sound_ofNfa nfa),
    Recognizer.accepted_ofNfa hlast]
  simp

theorem sound_allPrefixes (nfa : Nfa) : (Recognizer.ofNfa nfa).prune.acceptReachable.Sound :=
  Recognizer.sound_acceptReachable (Recognizer.sound_prune (Recognizer.sound_ofNfa nfa))

theorem wellFormed_allPrefixes (nfa : Nfa) : nfa.allPrefixes.WellFormed :=
  Recognizer.wellFormed_toNfa (sound_allPrefixes nfa)

theorem mem_language_allPrefixes (hlast : nfa.last < nfa.states.size) :
    w ∈ nfa.allPrefixes.language ↔ w ≠ [] ∧ ∃ v, w ++ v ∈ nfa.recognized := by
  rw [allPrefixes, Recognizer.mem_language_toNfa (sound_allPrefixes nfa), and_comm]
  simp only [Bool.false_eq_true, false_or]
  apply and_congr_right
  intro hw
  rw [Recognizer.accepted_acceptReachable_prune (Recognizer.sound_ofNfa nfa) hw,
    Recognizer.accepted_ofNfa hlast]

end Nfa

end LongestMatch
