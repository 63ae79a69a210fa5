import LongestMatch.Nfa.Operators
import LongestMatch.Proofs.Trails

/-!
# Edges added, states merged

The operators put automata together by silent edges. `Nfa.link` adds one; `between_cycle` says what
can be read then, and `trail_link` what that comes to if there is no way back. `Nfa.join` may merge
the two states instead; seen from any state but the one merged away, that is the same (`trail_join`,
`sees_join`).

What a state carries besides its edges, its action and its markers, is its `Badge`. `Nfa.Sees` says
that a text leads to a badge of some kind, so the laws of the operators are stated once, for actions
and for the roles of groups.
-/

namespace LongestMatch

open scoped Computability

/-! ## One more silent edge -/

section Trail

variable {edge edge' : Nat → Option Char → Nat → Prop} {p q r x y : Nat} {w : List Char}

/-- If every edge becomes a trail under a renaming of states, every trail does. -/
theorem Trail.map_states {P : Nat → Prop} {f : Nat → Nat}
    (hP : ∀ p l q, P p → edge p l q → Trail edge' (f p) l.toList (f q) ∧ P q)
    (h : Trail edge p w q) (hp : P p) : Trail edge' (f p) w (f q) := by
  induction h with
  | nil p => exact .nil (f p)
  | silent e _ ih =>
    obtain ⟨t, hq⟩ := hP _ _ _ hp e
    exact t.trans (ih hq)
  | char e _ ih =>
    obtain ⟨t, hq⟩ := hP _ _ _ hp e
    exact t.trans (ih hq)

theorem trail_of_edge {l : Option Char} (e : edge p l q) : Trail edge p l.toList q := by
  cases l with
  | none => exact trail_edge e
  | some c => exact trail_single e

/-- The texts that are read between two states. -/
def between (edge : Nat → Option Char → Nat → Prop) (p q : Nat) : Language Char :=
  {w | Trail edge p w q}

theorem mem_between : w ∈ between edge p q ↔ Trail edge p w q :=
  Iff.rfl

section Cycle

variable (hedge : ∀ p l q, edge' p l q ↔ edge p l q ∨ p = x ∧ l = none ∧ q = y)

include hedge

theorem mem_cycle_of_trail (h : Trail edge' p w r) :
    w ∈ between edge p r + between edge p x * ((between edge y x)∗ * between edge y r) := by
  have hlink : between edge y r + between edge y x * ((between edge y x)∗ * between edge y r) ≤
      between edge x x * ((between edge y x)∗ * between edge y r) := by
    have hnil : (1 : Language Char) ≤ between edge x x := by
      rintro w rfl
      exact .nil x
    have hloop : (between edge y x)∗ * between edge y r ≤
        between edge x x * ((between edge y x)∗ * between edge y r) :=
      le_mul_of_one_le_left' hnil
    refine add_le (le_trans (le_mul_of_one_le_left' one_le_kstar) hloop) (le_trans ?_ hloop)
    rw [← mul_assoc]
    exact mul_le_mul_left mul_kstar_le_kstar _
  induction h with
  | nil p => exact .inl (.nil p)
  | @silent p q r w e _ ih =>
    rcases (hedge _ _ _).1 e with e | ⟨rfl, -, rfl⟩
    · rcases ih hlink with t | ⟨u, hu, v, hv, rfl⟩
      · exact .inl (.silent e t)
      · exact .inr ⟨u, .silent e hu, v, hv, rfl⟩
    · exact .inr (hlink (ih hlink))
  | @char p q r c w e _ ih =>
    rcases (hedge _ _ _).1 e with e | ⟨-, hnone, -⟩
    · rcases ih hlink with t | ⟨u, hu, v, hv, rfl⟩
      · exact .inl (.char e t)
      · exact .inr ⟨c :: u, .char e hu, v, hv, rfl⟩
    · cases hnone

/-- With a silent edge from `x` to `y` a trail goes to `x` and, after any number of rounds from `y`
to `x`, on from `y`; or it does not use the edge. -/
theorem between_cycle (p r : Nat) :
    between edge' p r =
      between edge p r + between edge p x * ((between edge y x)∗ * between edge y r) := by
  have hold : ∀ p q, between edge p q ≤ between edge' p q := fun p q w h =>
    h.mono fun p l q e => (hedge p l q).2 (.inl e)
  have hon : ∀ p, between edge p x * between edge' y r ≤ between edge' p r := by
    rintro p _ ⟨u, hu, v, hv, rfl⟩
    exact (hold p x hu).trans (.silent ((hedge x none y).2 (.inr ⟨rfl, rfl, rfl⟩)) hv)
  refine le_antisymm (fun w => mem_cycle_of_trail hedge) (add_le (hold p r) ?_)
  calc between edge p x * ((between edge y x)∗ * between edge y r)
      ≤ between edge p x * ((between edge y x)∗ * between edge' y r) :=
        mul_le_mul_right (mul_le_mul_right (hold y r) _) _
    _ ≤ between edge p x * between edge' y r :=
        mul_le_mul_right (kstar_mul_le_self (hon y)) _
    _ ≤ between edge' p r := hon p

/-- If no trail leads back from `y` to `x`, the edge is used once at most. -/
theorem trail_link (hback : ∀ v, ¬Trail edge y v x) :
    Trail edge' p w r ↔
      Trail edge p w r ∨ ∃ u v, w = u ++ v ∧ Trail edge p u x ∧ Trail edge y v r := by
  have hloop : between edge y x = 0 := by
    ext v
    exact iff_of_false (hback v) id
  rw [← mem_between, between_cycle hedge p r, hloop, kstar_zero, one_mul, Language.mem_add,
    Language.mem_mul]
  refine or_congr Iff.rfl ⟨?_, ?_⟩
  · intro h
    obtain ⟨u, hu, v, hv, rfl⟩ := h
    exact ⟨u, v, rfl, hu, hv⟩
  · intro h
    obtain ⟨u, v, rfl, hu, hv⟩ := h
    exact ⟨u, hu, v, hv, rfl⟩

/-- If nothing leads on from `y`, the edge only adds a way to `y`. -/
theorem trail_link_terminal (hxy : x ≠ y) (hy : ∀ l q, ¬edge y l q) :
    Trail edge' p w r ↔ Trail edge p w r ∨ r = y ∧ Trail edge p w x := by
  have hback : ∀ v, ¬Trail edge y v x := fun v t => hxy ((trail_of_no_edge hy).1 t).2
  rw [trail_link hedge hback]
  refine or_congr Iff.rfl ⟨?_, ?_⟩
  · intro h
    obtain ⟨u, v, rfl, hu, hv⟩ := h
    obtain ⟨rfl, rfl⟩ := (trail_of_no_edge hy).1 hv
    exact ⟨rfl, by rwa [List.append_nil]⟩
  · intro h
    obtain ⟨rfl, hu⟩ := h
    exact ⟨w, [], (List.append_nil w).symm, hu, .nil r⟩

end Cycle

end Trail

/-! ## Badges -/

/-- What a state carries besides its edges. -/
abbrev Badge := Option ActionId × Marks

/-- The badge of a state that carries nothing. -/
def Badge.blank : Badge :=
  (none, {})

/-- The badge after the unbound groups have been moved behind others. -/
def Badge.shift (offset : Nat) (b : Badge) : Badge :=
  (b.1, b.2.shiftUnbound offset)

/-- The action is this one. -/
def Badge.Acts (a : ActionId) (b : Badge) : Prop :=
  b.1 = some a

theorem Badge.not_acts_blank (a : ActionId) : ¬Acts a blank := by
  intro h
  cases h

/-- What a state carries. -/
def State.badge (s : State) : Badge :=
  (s.action, s.marks)

theorem State.badge_eq_blank {s : State} (haction : s.action = none)
    (hmarks : s.marks.isEmpty = true) : s.badge = Badge.blank := by
  obtain ⟨trans, eps, action, ⟨entries⟩⟩ := s
  obtain rfl : action = none := haction
  obtain rfl : entries = [] := List.isEmpty_iff.1 hmarks
  rfl

namespace Nfa

variable {nfa : Nfa} {p q r : Nat} {l : Option Char} {w : List Char} {a : ActionId}

/-! ## Changing single states -/

theorem state_modify (id : Nat) (f : State → State) (p : Nat) :
    (nfa.modify id f).state p =
      if p = id ∧ id < nfa.states.size then f (nfa.state p) else nfa.state p := by
  simp only [state, modify, Array.getD_eq_getD_getElem?, Array.getElem?_modify]
  grind

@[simp] theorem size_modify (id : Nat) (f : State → State) :
    (nfa.modify id f).states.size = nfa.states.size :=
  Array.size_modify

theorem state_modify_self {id : Nat} (h : id < nfa.states.size) (f : State → State) :
    (nfa.modify id f).state id = f (nfa.state id) := by
  rw [state_modify, if_pos ⟨rfl, h⟩]

theorem state_modify_of_ne {id : Nat} (f : State → State) (h : p ≠ id) :
    (nfa.modify id f).state p = nfa.state p := by
  rw [state_modify, if_neg fun hp => h hp.1]

/-! ## Links -/

/-- The automaton with one more silent edge. -/
def link (nfa : Nfa) (x y : Nat) : Nfa :=
  nfa.modify x (State.addEps [y])

theorem edge_of_eps {ids : List Nat} :
    ({ eps := ids } : State).Edge l q ↔ l = none ∧ q ∈ ids := by
  cases l with
  | none => simp [State.Edge]
  | some c => simp [State.Edge, Transition.leads_nil]

theorem edge_addEps {s : State} {ids : List Nat} :
    (s.addEps ids).Edge l q ↔ s.Edge l q ∨ l = none ∧ q ∈ ids := by
  cases l with
  | none => simp [State.Edge, State.addEps]
  | some c => simp [State.Edge, State.addEps]

theorem edge_modify_addEps {x : Nat} (hx : x < nfa.states.size) {ids : List Nat} :
    (nfa.modify x (State.addEps ids)).Edge p l q ↔
      nfa.Edge p l q ∨ p = x ∧ l = none ∧ q ∈ ids := by
  rw [Edge, state_modify]
  split
  · next h => simp [edge_addEps, h, Edge]
  · next h =>
    have hp : p ≠ x := fun hp => h ⟨hp, hx⟩
    simp [hp, Edge]

theorem edge_link {x y : Nat} (hx : x < nfa.states.size) :
    (nfa.link x y).Edge p l q ↔ nfa.Edge p l q ∨ p = x ∧ l = none ∧ q = y := by
  rw [link, edge_modify_addEps hx, List.mem_singleton]

theorem trans_link (x y p : Nat) : ((nfa.link x y).state p).trans = (nfa.state p).trans := by
  rw [link, state_modify]
  split <;> rfl

/-! ## Badges in sight -/

theorem badge_link (x y p : Nat) : ((nfa.link x y).state p).badge = (nfa.state p).badge := by
  rw [link, state_modify]
  split <;> rfl

theorem action_link (x y p : Nat) : ((nfa.link x y).state p).action = (nfa.state p).action :=
  congrArg Prod.fst (badge_link x y p)

/-- A text read from a state leads to a state whose badge has a property. -/
def Sees (nfa : Nfa) (P : Badge → Prop) (p : Nat) (w : List Char) : Prop :=
  ∃ q, Trail nfa.Edge p w q ∧ P (nfa.state q).badge

variable {P : Badge → Prop}

theorem sees_link {x y : Nat} (hx : x < nfa.states.size)
    (hback : ∀ v, ¬Trail nfa.Edge y v x) : (nfa.link x y).Sees P p w ↔
      nfa.Sees P p w ∨ ∃ u v, w = u ++ v ∧ Trail nfa.Edge p u x ∧ nfa.Sees P y v := by
  have htrail : ∀ q, Trail (nfa.link x y).Edge p w q ↔ Trail nfa.Edge p w q ∨
      ∃ u v, w = u ++ v ∧ Trail nfa.Edge p u x ∧ Trail nfa.Edge y v q :=
    fun q => trail_link (fun p l q => edge_link hx) hback
  simp only [Sees, htrail, badge_link]
  refine ⟨?_, ?_⟩
  · intro h
    obtain ⟨q, t | ⟨u, v, rfl, hu, hv⟩, hq⟩ := h
    · exact .inl ⟨q, t, hq⟩
    · exact .inr ⟨u, v, rfl, hu, q, hv, hq⟩
  · intro h
    rcases h with ⟨q, t, hq⟩ | ⟨u, v, rfl, hu, q, hv, hq⟩
    · exact ⟨q, .inl t, hq⟩
    · exact ⟨q, .inr ⟨u, v, rfl, hu, hv⟩, hq⟩

/-! ## One more state -/

section Push

variable {whole : Nfa} {s : State} (h : whole.states = nfa.states.push s)

include h

theorem state_push : whole.state p = if p = nfa.states.size then s else nfa.state p := by
  rw [state, state, h, Array.getD_eq_getD_getElem?, Array.getD_eq_getD_getElem?,
    Array.getElem?_push]
  split <;> rfl

theorem edge_push :
    whole.Edge p l q ↔ nfa.Edge p l q ∨ p = nfa.states.size ∧ s.Edge l q := by
  rw [Edge, state_push h]
  split
  · next heq =>
    refine (or_iff_right fun e => ?_).trans (and_iff_right heq) |>.symm
    have := Edge.lt_size e
    omega
  · next hne => simp [hne, Edge]

/-- What is read from the states that were there before is the same, if edges lead to such states.
-/
theorem trail_push (hlt : ∀ p l q, nfa.Edge p l q → q < nfa.states.size)
    (hp : p < nfa.states.size) : Trail whole.Edge p w q ↔ Trail nfa.Edge p w q := by
  refine ⟨fun t => ?_, fun t => t.mono fun p l q e => (edge_push h).2 (.inl e)⟩
  refine t.map_edges (P := fun p => p < nfa.states.size) (fun p l q hp e => ?_) hp
  rcases (edge_push h).1 e with e | ⟨rfl, -⟩
  · exact ⟨e, hlt p l q e⟩
  · omega

theorem sees_push (hlt : ∀ p l q, nfa.Edge p l q → q < nfa.states.size)
    (hp : p < nfa.states.size) : whole.Sees P p w ↔ nfa.Sees P p w := by
  apply exists_congr
  intro q
  rw [trail_push h hlt hp]
  apply and_congr_right
  intro t
  have hq : q < nfa.states.size :=
    t.invariant (P := fun q => q < nfa.states.size) (fun p l q _ e => hlt p l q e) hp
  rw [state_push h, if_neg (by omega)]

end Push

section PushEmpty

variable {whole : Nfa} (h : whole.states = nfa.states.push {})

include h

/-- A new state without anything is like one that does not exist. -/
theorem state_push_empty (p : Nat) : whole.state p = nfa.state p := by
  rw [state_push h]
  split
  · next heq => rw [heq, state_of_size_le (Nat.le_refl _)]
  · rfl

theorem edge_push_empty (p : Nat) (l : Option Char) (q : Nat) :
    whole.Edge p l q ↔ nfa.Edge p l q := by
  rw [Edge, state_push_empty h, Edge]

end PushEmpty

/-! ## Joining two states -/

/-- What merging takes for granted: the two states are different, and nothing leads to the second.
-/
structure Joinable (nfa : Nfa) (source goal : Nat) : Prop where
  source_lt : source < nfa.states.size
  goal_lt : goal < nfa.states.size
  ne : source ≠ goal
  no_edge : ∀ p l, ¬nfa.Edge p l goal

variable {source goal : Nat}

theorem trans_of_isImportant_eq_false {s : State} (h : s.isImportant = false) :
    s.trans = [] ∧ s.badge = Badge.blank := by
  simp only [State.isImportant, Bool.or_eq_false_iff, Bool.not_eq_false', List.isEmpty_iff,
    Option.isSome_eq_false_iff, Option.isNone_iff_eq_none] at h
  exact ⟨h.1.1, State.badge_eq_blank h.1.2 h.2⟩

theorem targets_of_isBare {s : State} (h : s.isBare = true) :
    s.targets = [] ∧ s.badge = Badge.blank := by
  simp only [State.isBare, Bool.and_eq_true, List.isEmpty_iff, Option.isNone_iff_eq_none] at h
  refine ⟨?_, State.badge_eq_blank h.1.2 h.2⟩
  rw [State.targets, h.1.1.1, h.1.1.2]
  rfl

/-- The second state has been merged into the first: the first has the edges of both, and the second
is left without any. One of the two carried nothing, and the first has the badge of the other. -/
structure Merged (nfa merged : Nfa) (source goal : Nat) : Prop where
  edge_source : ∀ l q, merged.Edge source l q ↔ nfa.Edge source l q ∨ nfa.Edge goal l q
  edge_goal : ∀ l q, ¬merged.Edge goal l q
  edge_other : ∀ p, p ≠ source → p ≠ goal → ∀ l q, merged.Edge p l q ↔ nfa.Edge p l q
  badge_source :
    (nfa.state goal).badge = Badge.blank ∧
      (merged.state source).badge = (nfa.state source).badge ∨
    (nfa.state source).badge = Badge.blank ∧
      (merged.state source).badge = (nfa.state goal).badge
  badge_other : ∀ p, p ≠ source → p ≠ goal →
    (merged.state p).badge = (nfa.state p).badge

theorem Merged.source_iff {merged : Nfa} {source goal : Nat} (h : nfa.Merged merged source goal)
    (hblank : ¬P Badge.blank) : P (merged.state source).badge ↔
      P (nfa.state source).badge ∨ P (nfa.state goal).badge := by
  rcases h.badge_source with ⟨hgoal, heq⟩ | ⟨hsource, heq⟩
  · rw [heq, hgoal, or_iff_left hblank]
  · rw [heq, hsource, or_iff_right hblank]

@[simp] theorem size_join (source goal : Nat) :
    (nfa.join source goal).states.size = nfa.states.size := by
  unfold join
  simp only
  split
  · simp
  · split <;> simp

@[simp] theorem start_join (source goal : Nat) : (nfa.join source goal).start = nfa.start := by
  unfold join
  simp only
  split
  · rfl
  · split <;> rfl

@[simp] theorem last_join (source goal : Nat) : (nfa.join source goal).last = nfa.last := by
  unfold join
  simp only
  split
  · rfl
  · split <;> rfl

@[simp] theorem nextGroup_join (source goal : Nat) :
    (nfa.join source goal).nextGroup = nfa.nextGroup := by
  unfold join
  simp only
  split
  · rfl
  · split <;> rfl

@[simp] theorem config_join (source goal : Nat) :
    (nfa.join source goal).config = nfa.config := by
  unfold join
  simp only
  split
  · rfl
  · split <;> rfl

/-- What the states are after joining; the case depends on what they were like. -/
theorem join_states (h : nfa.Joinable source goal) :
    ((nfa.state goal).isImportant = false ∧ (nfa.join source goal).state source =
        (nfa.state source).addEps (nfa.state goal).eps ∧
      (nfa.join source goal).state goal = { nfa.state goal with eps := [] } ∧
      ∀ p, p ≠ source → p ≠ goal → (nfa.join source goal).state p = nfa.state p) ∨
    ((nfa.state source).isBare = true ∧ (nfa.join source goal).state source = nfa.state goal ∧
      (nfa.join source goal).state goal = {} ∧
      ∀ p, p ≠ source → p ≠ goal → (nfa.join source goal).state p = nfa.state p) ∨
    nfa.join source goal = nfa.link source goal := by
  obtain ⟨hs, hg, hne, -⟩ := h
  unfold join
  simp only
  split
  · next himp =>
    refine .inl ⟨by simpa using himp, ?_, ?_, fun p hps hpg => ?_⟩
    · rw [state_modify_self (by simpa using hs), state_modify_of_ne _ hne]
    · rw [state_modify_of_ne _ (Ne.symm hne), state_modify_self hg]
    · rw [state_modify_of_ne _ hps, state_modify_of_ne _ hpg]
  · split
    · next hbare =>
      refine .inr (.inl ⟨hbare, ?_, ?_, fun p hps hpg => ?_⟩)
      · rw [state_modify_self (by simpa using hs)]
      · rw [state_modify_of_ne _ (Ne.symm hne), state_modify_self hg]
      · rw [state_modify_of_ne _ hps, state_modify_of_ne _ hpg]
    · exact .inr (.inr rfl)

theorem join_cases (h : nfa.Joinable source goal) :
    nfa.Merged (nfa.join source goal) source goal ∨
      nfa.join source goal = nfa.link source goal := by
  rcases join_states h with ⟨himp, hsource, hgoal, hother⟩ | ⟨hbare, hsource, hgoal, hother⟩ | hlink
  · -- the second state carries nothing but silent edges, which are handed over
    obtain ⟨htrans, hblank⟩ := trans_of_isImportant_eq_false himp
    refine .inl ⟨fun l q => ?_, fun l q => ?_, fun p hps hpg l q => ?_, .inl ⟨hblank, ?_⟩,
      fun p hps hpg => ?_⟩
    · rw [Edge, hsource, edge_addEps, Edge, Edge]
      cases l with
      | none => simp [State.Edge]
      | some c => simp [State.Edge, htrans, Transition.leads_nil]
    · rw [Edge, hgoal]
      apply State.edge_of_targets_nil
      rw [State.targets, htrans]
      rfl
    · rw [Edge, hother p hps hpg, Edge]
    · rw [hsource]
      rfl
    · rw [hother p hps hpg]
  · -- the first state carries nothing at all, so the second takes its place
    obtain ⟨htargets, hblank⟩ := targets_of_isBare hbare
    refine .inl ⟨fun l q => ?_, fun l q => ?_, fun p hps hpg l q => ?_, .inr ⟨hblank, ?_⟩,
      fun p hps hpg => ?_⟩
    · rw [Edge, hsource]
      exact (or_iff_right (State.edge_of_targets_nil htargets)).symm
    · rw [Edge, hgoal]
      exact State.edge_of_targets_nil rfl
    · rw [Edge, hother p hps hpg, Edge]
    · rw [hsource]
    · rw [hother p hps hpg]
  · exact .inr hlink

section Merged

variable {merged : Nfa} (h : nfa.Joinable source goal) (hm : nfa.Merged merged source goal)

include h hm

theorem Merged.trail_to_link (hp : p ≠ goal) (t : Trail merged.Edge p w r) :
    Trail (nfa.link source goal).Edge p w r ∧ r ≠ goal := by
  have hlink : ∀ {p l q}, nfa.Edge p l q → (nfa.link source goal).Edge p l q :=
    fun e => (edge_link h.source_lt).2 (.inl e)
  have hne : ∀ {p l q}, nfa.Edge p l q → q ≠ goal := by
    intro p l q e hq
    subst hq
    exact h.no_edge _ _ e
  have hstep : ∀ p l q, p ≠ goal → merged.Edge p l q →
      Trail (nfa.link source goal).Edge p l.toList q ∧ q ≠ goal := by
    intro p l q hp e
    rcases eq_or_ne p source with rfl | hps
    · rcases (hm.edge_source l q).1 e with e | e
      · exact ⟨trail_of_edge (hlink e), hne e⟩
      · -- an edge taken over goes through the second state
        refine ⟨?_, hne e⟩
        exact .silent ((edge_link h.source_lt).2 (.inr ⟨rfl, rfl, rfl⟩)) (trail_of_edge (hlink e))
    · have e := (hm.edge_other p hps hp l q).1 e
      exact ⟨trail_of_edge (hlink e), hne e⟩
  refine ⟨t.map_states (f := id) hstep hp, ?_⟩
  exact t.invariant (P := fun p => p ≠ goal) (fun p l q hp e => (hstep p l q hp e).2) hp

/-- Trails of the linked automaton, with the second state read as the first. -/
theorem Merged.trail_from_link (t : Trail (nfa.link source goal).Edge p w r) :
    Trail merged.Edge (if p = goal then source else p) w (if r = goal then source else r) := by
  refine t.map_states (P := fun _ => True) (f := fun p => if p = goal then source else p)
    (fun p l q _ e => ⟨?_, trivial⟩) trivial
  rcases (edge_link h.source_lt).1 e with e' | ⟨rfl, rfl, rfl⟩
  · have hq : q ≠ goal := by
      intro heq
      obtain rfl := heq
      exact h.no_edge _ _ e'
    rw [if_neg hq]
    rcases eq_or_ne p goal with rfl | hpg
    · rw [if_pos rfl]
      exact trail_of_edge ((hm.edge_source l q).2 (.inr e'))
    · rw [if_neg hpg]
      rcases eq_or_ne p source with rfl | hps
      · exact trail_of_edge ((hm.edge_source l q).2 (.inl e'))
      · exact trail_of_edge ((hm.edge_other p hps hpg l q).2 e')
  · rw [if_neg h.ne, if_pos rfl]
    exact .nil _

theorem Merged.trail_iff (hp : p ≠ goal) (hr : r ≠ goal) :
    Trail merged.Edge p w r ↔ Trail (nfa.link source goal).Edge p w r := by
  refine ⟨fun t => (hm.trail_to_link h hp t).1, fun t => ?_⟩
  have := hm.trail_from_link h t
  rwa [if_neg hp, if_neg hr] at this

theorem Merged.sees_iff (hblank : ¬P Badge.blank) (hp : p ≠ goal) :
    merged.Sees P p w ↔ (nfa.link source goal).Sees P p w := by
  refine ⟨?_, ?_⟩
  · intro ⟨q, t, hb⟩
    obtain ⟨t, hq⟩ := hm.trail_to_link h hp t
    rcases eq_or_ne q source with rfl | hqs
    · rcases (hm.source_iff hblank).1 hb with hb | hb
      · exact ⟨q, t, by rwa [badge_link]⟩
      · refine ⟨goal, ?_, by rwa [badge_link]⟩
        have e : (nfa.link q goal).Edge q none goal :=
          (edge_link h.source_lt).2 (.inr ⟨rfl, rfl, rfl⟩)
        simpa using t.trans (trail_edge e)
    · rw [hm.badge_other q hqs hq] at hb
      exact ⟨q, t, by rwa [badge_link]⟩
  · intro ⟨q, t, hb⟩
    rw [badge_link] at hb
    have t := hm.trail_from_link h t
    rw [if_neg hp] at t
    refine ⟨_, t, ?_⟩
    rcases eq_or_ne q goal with rfl | hqg
    · rw [if_pos rfl]
      exact (hm.source_iff hblank).2 (.inr hb)
    · rw [if_neg hqg]
      rcases eq_or_ne q source with rfl | hqs
      · exact (hm.source_iff hblank).2 (.inl hb)
      · rwa [hm.badge_other q hqs hqg]

end Merged

/-- Seen from other states than the one merged away, joining is linking. -/
theorem trail_join (h : nfa.Joinable source goal) (hp : p ≠ goal) (hr : r ≠ goal) :
    Trail (nfa.join source goal).Edge p w r ↔ Trail (nfa.link source goal).Edge p w r := by
  rcases join_cases h with hm | hlink
  · exact hm.trail_iff h hp hr
  · rw [hlink]

theorem sees_join (h : nfa.Joinable source goal) (hblank : ¬P Badge.blank) (hp : p ≠ goal) :
    (nfa.join source goal).Sees P p w ↔ (nfa.link source goal).Sees P p w := by
  rcases join_cases h with hm | hlink
  · exact hm.sees_iff h hblank hp
  · rw [hlink]

/-- After joining, the first state may have edges of both, and the others have their own. -/
theorem edge_join (h : nfa.Joinable source goal) (e : (nfa.join source goal).Edge p l q) :
    nfa.Edge p l q ∨ p = source ∧ nfa.Edge goal l q ∨ p = source ∧ l = none ∧ q = goal := by
  rcases join_cases h with hm | hlink
  · rcases eq_or_ne p goal with rfl | hpg
    · exact absurd e (hm.edge_goal l q)
    · rcases eq_or_ne p source with rfl | hps
      · rcases (hm.edge_source l q).1 e with e | e
        · exact .inl e
        · exact .inr (.inl ⟨rfl, e⟩)
      · exact .inl ((hm.edge_other p hps hpg l q).1 e)
  · rw [hlink, edge_link h.source_lt] at e
    rcases e with e | e
    · exact .inl e
    · exact .inr (.inr e)

theorem state_join_of_ne (h : nfa.Joinable source goal) (hps : p ≠ source) (hpg : p ≠ goal) :
    (nfa.join source goal).state p = nfa.state p := by
  rcases join_states h with ⟨-, -, -, hother⟩ | ⟨-, -, -, hother⟩ | hlink
  · exact hother p hps hpg
  · exact hother p hps hpg
  · rw [hlink, link, state_modify_of_ne _ hps]

/-- The transitions of a state are those that it, or the state merged into it, had before. -/
theorem trans_join (h : nfa.Joinable source goal) (p : Nat) :
    ((nfa.join source goal).state p).trans = (nfa.state p).trans ∨
      ((nfa.join source goal).state p).trans = (nfa.state goal).trans ∨
      ((nfa.join source goal).state p).trans = [] := by
  rcases join_states h with ⟨-, hsource, hgoal, hother⟩ | ⟨-, hsource, hgoal, hother⟩ | hlink
  · left
    rcases eq_or_ne p goal with rfl | hpg
    · rw [hgoal]
    · rcases eq_or_ne p source with rfl | hps
      · rw [hsource]
        rfl
      · rw [hother p hps hpg]
  · rcases eq_or_ne p goal with rfl | hpg
    · exact .inr (.inr (by rw [hgoal]))
    · rcases eq_or_ne p source with rfl | hps
      · exact .inr (.inl (by rw [hsource]))
      · exact .inl (by rw [hother p hps hpg])
  · exact .inl (by rw [hlink, trans_link])

end Nfa

end LongestMatch
