import LongestMatch.Proofs.Links
import LongestMatch.Proofs.Reach

/-!
# Automata moved behind others

`absorb` moves the reachable states of an automaton behind a row of states and renumbers them. What
it has to guarantee is an `Embedding`: the states that are already there stay as they are, and each
moved state has, under the new numbers, the edges and the badge that it had, its groups moved behind
those that are there. Everything else follows from that (`Embedding.trail_iff`,
`Embedding.sees_iff`).
-/

namespace LongestMatch

namespace Nfa

variable {nfa whole : Nfa} {p q r : Nat} {l : Option Char} {w : List Char} {B : Badge → Prop}

/-! ## Moved states -/

theorem leads_map_retarget {ts : List Transition} {f : Nat → Nat} {c : Char} :
    Transition.Leads (ts.map (Transition.retarget f)) c r ↔
      ∃ q, Transition.Leads ts c q ∧ r = f q := by
  simp only [Transition.Leads, List.mem_map]
  refine ⟨?_, ?_⟩
  · intro h
    obtain ⟨_, ⟨t, ht, rfl⟩, hc, rfl⟩ := h
    exact ⟨t.target, ⟨t, ht, hc, rfl⟩, rfl⟩
  · intro h
    obtain ⟨_, ⟨t, ht, hc, rfl⟩, rfl⟩ := h
    exact ⟨t.retarget f, ⟨t, ht, rfl⟩, hc, rfl⟩

theorem edge_relocate {s : State} {f : Nat → Nat} {offset : Nat} :
    (s.relocate f offset).Edge l r ↔ ∃ q, s.Edge l q ∧ r = f q := by
  cases l with
  | none => simp [State.Edge, State.relocate, eq_comm]
  | some c => exact leads_map_retarget

theorem sorted_relocate {s : State} (h : Transition.Sorted s.trans) (f : Nat → Nat)
    (offset : Nat) : Transition.Sorted (s.relocate f offset).trans := by
  refine ⟨List.pairwise_map.2 h.pairwise, fun t ht => ?_⟩
  obtain ⟨u, hu, rfl⟩ := List.mem_map.1 ht
  exact h.lo_le_hi u hu

/-- The states of `nfa` that satisfy `P` make up the states of `whole` from `base` on; `f` tells
their numbers there. -/
structure Embedding (nfa whole : Nfa) (P : Nat → Prop) (f : Nat → Nat) (base offset : Nat) :
    Prop where
  closed : ∀ p l q, P p → nfa.Edge p l q → P q
  base_le : ∀ p, P p → base ≤ f p
  lt_size : ∀ p, P p → f p < whole.states.size
  state_eq : ∀ p, P p → whole.state (f p) = (nfa.state p).relocate f offset
  injective : ∀ p q, P p → P q → f p = f q → p = q
  surjective : ∀ x, base ≤ x → x < whole.states.size → ∃ p, P p ∧ x = f p

section Embedding

variable {P : Nat → Prop} {f : Nat → Nat} {base offset : Nat}
  (h : nfa.Embedding whole P f base offset)

include h

theorem Embedding.edge_iff (hp : P p) : whole.Edge (f p) l r ↔ ∃ q, nfa.Edge p l q ∧ r = f q := by
  rw [Edge, h.state_eq p hp, edge_relocate, Edge]

theorem Embedding.trail_iff (hp : P p) :
    Trail whole.Edge (f p) w r ↔ ∃ q, Trail nfa.Edge p w q ∧ r = f q :=
  trail_embed h.closed (fun _ _ _ hp => h.edge_iff hp) hp

theorem Embedding.trail_image_iff (hp : P p) (hq : P q) :
    Trail whole.Edge (f p) w (f q) ↔ Trail nfa.Edge p w q := by
  rw [h.trail_iff hp]
  refine ⟨?_, fun t => ⟨q, t, rfl⟩⟩
  intro ⟨q', t, hq'⟩
  rwa [h.injective q q' hq (t.invariant h.closed hp) hq']

theorem Embedding.badge_eq (hp : P p) :
    (whole.state (f p)).badge = (nfa.state p).badge.shift offset := by
  rw [h.state_eq p hp]
  rfl

theorem Embedding.action_eq (hp : P p) :
    (whole.state (f p)).action = (nfa.state p).action :=
  congrArg Prod.fst (h.badge_eq hp)

theorem Embedding.sees_iff (hp : P p) :
    whole.Sees B (f p) w ↔ nfa.Sees (fun b => B (b.shift offset)) p w := by
  refine ⟨?_, ?_⟩
  · intro ⟨r, t, hb⟩
    obtain ⟨q, tq, rfl⟩ := (h.trail_iff hp).1 t
    rw [h.badge_eq (tq.invariant h.closed hp)] at hb
    exact ⟨q, tq, hb⟩
  · intro ⟨q, t, hb⟩
    refine ⟨f q, (h.trail_iff hp).2 ⟨q, t, rfl⟩, ?_⟩
    rwa [h.badge_eq (t.invariant h.closed hp)]

/-- An edge among the moved states is one that was moved. -/
theorem Embedding.exists_edge (hp : base ≤ p) (e : whole.Edge p l r) :
    ∃ p' q', P p' ∧ P q' ∧ nfa.Edge p' l q' ∧ p = f p' ∧ r = f q' := by
  obtain ⟨p', hp', rfl⟩ := h.surjective p hp e.lt_size
  obtain ⟨q', e', rfl⟩ := (h.edge_iff hp').1 e
  exact ⟨p', q', hp', h.closed _ _ _ hp' e', e', rfl, rfl⟩

theorem Embedding.sorted (hn : ∀ p, Transition.Sorted (nfa.state p).trans) (hp : base ≤ p) :
    Transition.Sorted (whole.state p).trans := by
  rcases Nat.lt_or_ge p whole.states.size with hlt | hge
  · obtain ⟨p', hp', rfl⟩ := h.surjective p hp hlt
    rw [h.state_eq p' hp']
    exact sorted_relocate (hn p') _ _
  · rw [state_of_size_le hge]
    exact Transition.sorted_nil

end Embedding

/-! ## The states that are moved -/

/-- The states that can be reached from one of the two ends. -/
def Moved (nfa : Nfa) (p : Nat) : Prop :=
  (nfa.reachable [nfa.start, nfa.last]).contains p = true

/-- The new number of a state behind `base` others. -/
def rename (nfa : Nfa) (base p : Nat) : Nat :=
  base + ((nfa.reachable [nfa.start, nfa.last]).rank? p).getD 0

theorem moved_start (h : nfa.WellFormed) : nfa.Moved nfa.start := by
  rw [Moved, reachable, StateSet.contains_reach]
  exact ⟨nfa.start, by simp, h.start_lt, .refl⟩

theorem moved_last (h : nfa.WellFormed) : nfa.Moved nfa.last := by
  rw [Moved, reachable, StateSet.contains_reach]
  exact ⟨nfa.last, by simp, h.last_lt, .refl⟩

theorem moved_closed (h : nfa.WellFormed) (hp : nfa.Moved p) (e : nfa.Edge p l q) :
    nfa.Moved q := by
  rw [Moved, reachable, StateSet.contains_reach] at hp ⊢
  obtain ⟨r, hr, hlt, hrp⟩ := hp
  exact ⟨r, hr, hlt, hrp.tail ⟨h.mem_targets.2 ⟨l, e⟩, h.edge_lt _ _ _ e⟩⟩

theorem rank_of_moved (hp : nfa.Moved p) :
    ∃ i, (nfa.reachable [nfa.start, nfa.last]).rank? p = some i ∧
      (nfa.reachable [nfa.start, nfa.last]).toList[i]? = some p := by
  obtain ⟨i, hi⟩ := StateSet.contains_iff.1 hp
  exact ⟨i, hi, (StateSet.getElem?_toList (StateSet.coherent_reach _ _ _)).2 hi⟩

/-- No two of them get the same number. -/
theorem rename_inj {base : Nat} (hp : nfa.Moved p) (hq : nfa.Moved q)
    (heq : nfa.rename base p = nfa.rename base q) : p = q := by
  obtain ⟨i, hrank, hi⟩ := rank_of_moved hp
  obtain ⟨j, hrank', hj⟩ := rank_of_moved hq
  rw [rename, rename, hrank, hrank', Option.getD_some, Option.getD_some] at heq
  obtain rfl : i = j := by omega
  rw [hi] at hj
  exact Option.some.inj hj

/-- Each of the next numbers is given to one of them. -/
theorem exists_rename_eq {base x : Nat} (hx : base ≤ x)
    (hlt : x < base + (nfa.reachable [nfa.start, nfa.last]).toList.length) :
    ∃ p, nfa.Moved p ∧ x = nfa.rename base p := by
  obtain ⟨p, hp⟩ : ∃ p, (nfa.reachable [nfa.start, nfa.last]).toList[x - base]? = some p :=
    ⟨_, List.getElem?_eq_getElem (by omega)⟩
  have hrank : (nfa.reachable [nfa.start, nfa.last]).rank? p = some (x - base) :=
    (StateSet.getElem?_toList (StateSet.coherent_reach _ _ _)).1 hp
  refine ⟨p, StateSet.contains_iff.2 ⟨_, hrank⟩, ?_⟩
  rw [rename, hrank, Option.getD_some]
  omega

/-- An automaton embeds into every row of states that ends with its moved states. -/
theorem embedding_of_append (h : nfa.WellFormed) (row : Array State) (offset : Nat) (whole : Nfa)
    (hwhole : whole.states = row ++ (nfa.reachable [nfa.start, nfa.last]).toList.map fun id =>
      (nfa.state id).relocate (nfa.rename row.size) offset) :
    nfa.Embedding whole nfa.Moved (nfa.rename row.size) row.size offset ∧
      row.size ≤ whole.states.size ∧ ∀ p < row.size, whole.state p = row.getD p {} := by
  have hget : ∀ x, whole.states[x]? = if x < row.size then row[x]? else
      ((nfa.reachable [nfa.start, nfa.last]).toList[x - row.size]?).map fun id =>
        (nfa.state id).relocate (nfa.rename row.size) offset := by
    intro x
    rw [hwhole, ← Array.getElem?_toList, Array.toList_appendList, List.getElem?_append,
      List.getElem?_map]
    simp
  have hsize : whole.states.size =
      row.size + (nfa.reachable [nfa.start, nfa.last]).toList.length := by
    rw [hwhole, ← Array.length_toList, Array.toList_appendList]
    simp
  -- the new number of a moved state is its place in the row
  have hplace : ∀ p, nfa.Moved p →
      whole.states[nfa.rename row.size p]? =
        some ((nfa.state p).relocate (nfa.rename row.size) offset) := by
    intro p hp
    obtain ⟨i, hrank, hi⟩ := rank_of_moved hp
    rw [hget, rename, hrank, Option.getD_some, if_neg (by omega), Nat.add_sub_cancel_left, hi]
    rfl
  refine ⟨⟨fun p l q => moved_closed h, fun p _ => Nat.le_add_right _ _, fun p hp => ?_,
    fun p hp => ?_, fun p q => rename_inj, fun x hx hlt => exists_rename_eq hx (hsize ▸ hlt)⟩,
    by omega, fun p hp => ?_⟩
  · exact (Array.getElem?_eq_some_iff.1 (hplace p hp)).1
  · rw [state, Array.getD_eq_getD_getElem?, hplace p hp]
    rfl
  · rw [state, Array.getD_eq_getD_getElem?, hget, if_pos hp, ← Array.getD_eq_getD_getElem?]

/-! ## Two automata side by side -/

/-- The states of two automata in one row; `s` and `t` are the ends of the second one there. -/
structure Beside (nfa other both : Nfa) (s t : Nat) : Prop where
  first : nfa.WellFormed
  second : other.WellFormed
  embedding : other.Embedding both other.Moved (other.rename nfa.states.size) nfa.states.size
    nfa.nextGroup
  size_le : nfa.states.size ≤ both.states.size
  state_first : ∀ p < nfa.states.size, both.state p = nfa.state p
  start_eq : both.start = nfa.start
  last_eq : both.last = nfa.last
  s_eq : s = other.rename nfa.states.size other.start
  t_eq : t = other.rename nfa.states.size other.last

theorem takeIn_error_iff {nfa other : Nfa} : nfa.takeIn other = .error .tooManyGroups ↔
    maxGroups < nfa.nextGroup + other.nextGroup := by
  unfold takeIn
  simp only
  split
  · next h => simp [h]
  · next h => simp [h]

theorem beside_of_takeIn {nfa other both : Nfa} {s t : Nat} (hn : nfa.WellFormed)
    (ho : other.WellFormed) (h : nfa.takeIn other = .ok (both, s, t)) :
    nfa.Beside other both s t ∧ both.nextGroup = nfa.nextGroup + other.nextGroup := by
  unfold takeIn at h
  simp only at h
  split at h
  · cases h
  · cases h
    obtain ⟨hemb, hsize, hstate⟩ := embedding_of_append ho nfa.states nfa.nextGroup
      { nfa with
        states := (absorb nfa.states other nfa.nextGroup).1
        nextGroup := nfa.nextGroup + other.nextGroup } rfl
    exact ⟨⟨hn, ho, hemb, hsize, hstate, rfl, rfl, rfl, rfl⟩, rfl⟩

section Beside

variable {other both : Nfa} {s t : Nat} (h : nfa.Beside other both s t)

include h

theorem Beside.edge_first (hp : p < nfa.states.size) : both.Edge p l q ↔ nfa.Edge p l q := by
  rw [Edge, h.state_first p hp, Edge]

theorem Beside.trail_first (hp : p < nfa.states.size) :
    Trail both.Edge p w q ↔ Trail nfa.Edge p w q := by
  have hlt : ∀ p l q, p < nfa.states.size → nfa.Edge p l q → q < nfa.states.size :=
    fun p l q _ e => h.first.edge_lt p l q e
  refine ⟨fun t => ?_, fun t => ?_⟩
  · refine t.map_edges (P := fun p => p < nfa.states.size) (fun p l q hp e => ?_) hp
    have e := (h.edge_first hp).1 e
    exact ⟨e, hlt p l q hp e⟩
  · refine t.map_edges (P := fun p => p < nfa.states.size) (fun p l q hp e => ?_) hp
    exact ⟨(h.edge_first hp).2 e, hlt p l q hp e⟩

theorem Beside.sees_first (hp : p < nfa.states.size) :
    both.Sees B p w ↔ nfa.Sees B p w := by
  apply exists_congr
  intro q
  rw [h.trail_first hp]
  apply and_congr_right
  intro t
  rw [h.state_first q (h.first.trail_lt t hp)]

theorem Beside.base_le_s : nfa.states.size ≤ s :=
  h.s_eq ▸ h.embedding.base_le _ (moved_start h.second)

theorem Beside.base_le_t : nfa.states.size ≤ t :=
  h.t_eq ▸ h.embedding.base_le _ (moved_last h.second)

theorem Beside.s_lt : s < both.states.size :=
  h.s_eq ▸ h.embedding.lt_size _ (moved_start h.second)

theorem Beside.t_lt : t < both.states.size :=
  h.t_eq ▸ h.embedding.lt_size _ (moved_last h.second)

theorem Beside.s_ne_t : s ≠ t := by
  rw [h.s_eq, h.t_eq]
  intro heq
  exact h.second.start_ne_last
    (h.embedding.injective _ _ (moved_start h.second) (moved_last h.second) heq)

/-- Each state is one of the first automaton or a moved one of the second. -/
theorem Beside.cases (hp : p < both.states.size) : p < nfa.states.size ∨
    ∃ p', other.Moved p' ∧ p = other.rename nfa.states.size p' := by
  rcases Nat.lt_or_ge p nfa.states.size with hlt | hge
  · exact .inl hlt
  · exact .inr (h.embedding.surjective p hge hp)

/-- Each edge is one of the first automaton or a moved one of the second. -/
theorem Beside.edge_cases (e : both.Edge p l q) :
    (p < nfa.states.size ∧ nfa.Edge p l q) ∨
      ∃ p' q', other.Moved p' ∧ other.Moved q' ∧ other.Edge p' l q' ∧
        p = other.rename nfa.states.size p' ∧ q = other.rename nfa.states.size q' := by
  rcases Nat.lt_or_ge p nfa.states.size with hlt | hge
  · exact .inl ⟨hlt, (h.edge_first hlt).1 e⟩
  · exact .inr (h.embedding.exists_edge hge e)

theorem Beside.edge_lt (e : both.Edge p l q) : q < both.states.size := by
  rcases h.edge_cases e with ⟨-, e⟩ | ⟨p', q', -, hq', -, -, rfl⟩
  · exact Nat.lt_of_lt_of_le (h.first.edge_lt _ _ _ e) h.size_le
  · exact h.embedding.lt_size _ hq'

/-- No edge leads from the second automaton into the first. -/
theorem Beside.edge_second (hp : nfa.states.size ≤ p) (e : both.Edge p l q) :
    nfa.states.size ≤ q := by
  rcases h.edge_cases e with ⟨hlt, -⟩ | ⟨p', q', -, hq', -, -, rfl⟩
  · omega
  · exact h.embedding.base_le _ hq'

theorem Beside.trail_second (hp : nfa.states.size ≤ p) (t : Trail both.Edge p w q) :
    nfa.states.size ≤ q :=
  t.invariant (P := fun q => nfa.states.size ≤ q) (fun _ _ _ hp e => h.edge_second hp e) hp

theorem Beside.no_edge_start : ¬both.Edge p l nfa.start := by
  intro e
  rcases h.edge_cases e with ⟨-, e⟩ | ⟨p', q', -, hq', -, -, heq⟩
  · exact h.first.no_edge_start _ _ e
  · have := h.embedding.base_le _ hq'
    have := h.first.start_lt
    omega

theorem Beside.no_edge_s : ¬both.Edge p l s := by
  intro e
  have hs := h.base_le_s
  rcases h.edge_cases e with ⟨-, e⟩ | ⟨p', q', -, hq', e, -, heq⟩
  · have := h.first.edge_lt _ _ _ e
    omega
  · rw [h.s_eq] at heq
    obtain rfl := h.embedding.injective _ _ (moved_start h.second) hq' heq
    exact h.second.no_edge_start _ _ e

theorem Beside.no_edge_last : ¬both.Edge nfa.last l q := fun e =>
  h.first.no_edge_last _ _ ((h.edge_first h.first.last_lt).1 e)

theorem Beside.no_edge_t : ¬both.Edge t l q := by
  intro e
  rw [h.t_eq, h.embedding.edge_iff (moved_last h.second)] at e
  obtain ⟨q', e, -⟩ := e
  exact h.second.no_edge_last _ _ e

/-- What is read between the ends of the second automaton is its language. -/
theorem Beside.trail_s_t : Trail both.Edge s w t ↔ Trail other.Edge other.start w other.last := by
  rw [h.s_eq, h.t_eq, h.embedding.trail_image_iff (moved_start h.second) (moved_last h.second)]

theorem Beside.sees_s :
    both.Sees B s w ↔ other.Sees (fun b => B (b.shift nfa.nextGroup)) other.start w := by
  rw [h.s_eq, h.embedding.sees_iff (moved_start h.second)]

theorem Beside.action_s : (both.state s).action = none := by
  rw [h.s_eq, h.embedding.action_eq (moved_start h.second), h.second.action_start]

theorem Beside.sorted (p : Nat) : Transition.Sorted (both.state p).trans := by
  rcases Nat.lt_or_ge p nfa.states.size with hlt | hge
  · rw [h.state_first p hlt]
    exact h.first.sorted p
  · exact h.embedding.sorted h.second.sorted hge

end Beside

end Nfa

end LongestMatch
