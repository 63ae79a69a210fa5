import LongestMatch.Proofs.Roles

/-!
# Which states are in play

An operator moves the states of its operand that the start or the last state leads to (`Nfa.Moved`).
Since nothing leads away from the last state, these are the states that texts lead to, and the last
state itself (`moved_iff_reached`). Only they can have a part in anything that is made of the
automaton later, so `Nfa.InPlay` asks their badges for a property, and not those of states left behind.

* `InPlay.seq`, `InPlay.or`, `InPlay.loop`, … — what is in play after an operator was in play in an
  operand, or is blank.
* `has_none_addAction`, `has_some_addAction` — what an action takes over, and what it leaves: the last
  state keeps its unbound groups if no text leads to it.
-/

namespace LongestMatch

/-- Markers that have been handed over are not unbound any more. -/
theorem Marks.not_has_none_bind {marks : Marks} {a : ActionId} {group : Nat} {role : Role}
    (h : marks.Sound) : ¬(marks.bind a).Has none group role := by
  unfold bind
  split
  · next hfound =>
    intro hhas
    have hsays := (says_markers? h).2 hhas
    rw [hfound] at hsays
    exact Marker.not_says_nil hsays
  · next unbound hfound =>
    rw [has_add]
    intro hhas
    rcases hhas with ⟨heq, -⟩ | ⟨e, he, howner, -⟩
    · cases heq
    · -- there is no second entry without an owner
      obtain ⟨f, before, after, hbefore, hf, heq, herased⟩ :=
        List.exists_of_eraseP (p := fun e : MarksOf => e.owner = none) (List.mem_of_mem_eraseP he)
          (decide_eq_true howner)
      rw [herased, List.mem_append] at he
      rcases he with he | he
      · exact hbefore e he (decide_eq_true howner)
      · have hnodup := h.nodup
        rw [heq, List.map_append, List.map_cons, of_decide_eq_true hf] at hnodup
        refine (List.nodup_cons.1 (List.nodup_append.1 hnodup).2.1).1 ?_
        exact List.mem_map.2 ⟨e, he, howner⟩

namespace Nfa

variable {nfa other whole : Nfa} {p q : Nat} {a b : ActionId} {group : Nat} {role : Role}
  {w : List Char} {B C : Badge → Prop}

/-! ## States that move along -/

/-- The states that are moved are those that texts lead to, and the last one. -/
theorem moved_iff_reached (hn : nfa.WellFormed) :
    nfa.Moved p ↔ (∃ w, nfa.Reaches w p) ∨ p = nfa.last := by
  have hlink : StateSet.Link nfa.states.size (fun id => (nfa.state id).targets) =
      fun a b => ∃ l, nfa.Edge a l b := by
    funext a b
    exact propext (link_iff hn)
  have hlast : (∃ w, Trail nfa.Edge nfa.last w p) ↔ p = nfa.last := by
    simp only [hn.trail_last]
    exact ⟨fun ⟨_, _, heq⟩ => heq, fun heq => ⟨[], rfl, heq⟩⟩
  rw [Moved, reachable, StateSet.contains_reach, hlink, ← hlast]
  simp only [← exists_trail_iff]
  simp [hn.start_lt, hn.last_lt, Reaches]

theorem moved_of_reaches (hn : nfa.WellFormed) (t : nfa.Reaches w p) : nfa.Moved p :=
  (moved_iff_reached hn).2 (.inl ⟨w, t⟩)

theorem SameGraph.moved_iff (h : nfa.SameGraph whole) (hn : nfa.WellFormed) :
    whole.Moved p ↔ nfa.Moved p := by
  rw [moved_iff_reached hn, moved_iff_reached (h.wellFormed hn)]
  simp only [Reaches, h.start_eq, h.last_eq, h.trail_iff]

theorem moved_addAction (hn : nfa.WellFormed) (a : ActionId) :
    (nfa.addAction a).Moved p ↔ nfa.Moved p := by
  have hreaches : ∀ w, (nfa.arm a).Reaches w p ↔ nfa.Reaches w p := fun w => trail_congr (edge_arm a)
  have hlast : (nfa.arm a).last = nfa.last := rfl
  rw [(sameGraph_addAction nfa a).moved_iff (wellFormed_arm hn a), moved_iff_reached hn,
    moved_iff_reached (wellFormed_arm hn a), hlast]
  simp only [hreaches]

/-! ## What they carry -/

/-- The badges of the states in play have a property. -/
def InPlay (B : Badge → Prop) (nfa : Nfa) : Prop :=
  ∀ p, nfa.Moved p → B (nfa.state p).badge

theorem InPlay.mono (h : nfa.InPlay B) (hBC : ∀ b, B b → C b) : nfa.InPlay C :=
  fun p hp => hBC _ (h p hp)

/-- No text leads to another badge, and the last state has none. -/
theorem inPlay_iff (hn : nfa.WellFormed) : nfa.InPlay B ↔
    (∀ w, ¬nfa.Sees (fun b => ¬B b) nfa.start w) ∧ B (nfa.state nfa.last).badge := by
  constructor
  · intro h
    refine ⟨fun w hsees => ?_, h _ (moved_last hn)⟩
    obtain ⟨q, t, hq⟩ := hsees
    exact hq (h q (moved_of_reaches hn t))
  · intro h p hp
    rcases (moved_iff_reached hn).1 hp with ⟨w, t⟩ | rfl
    · exact not_not.1 fun hnot => h.1 w ⟨p, t, hnot⟩
    · exact h.2

theorem Blank.inPlay (h : nfa.Blank) (hblank : B Badge.blank) : nfa.InPlay B := by
  intro p _
  rw [h p]
  exact hblank

/-! ## The operators -/

section Binary

variable (hn : nfa.WellFormed) (ho : other.WellFormed) (hblank : B Badge.blank)
  (hbn : nfa.InPlay B) (hbo : other.InPlay fun b => B (b.shift nfa.nextGroup))

include hn ho hblank hbn hbo

theorem InPlay.seq (h : nfa.seq other = .ok whole) : whole.InPlay B := by
  obtain ⟨hseen, -⟩ := (inPlay_iff hn).1 hbn
  obtain ⟨hseen', hlast'⟩ := (inPlay_iff ho).1 hbo
  refine (inPlay_iff (wellFormed_seq hn ho h)).2 ⟨fun w hsees => ?_, ?_⟩
  · rcases (sees_seq hn ho (fun hnot => hnot hblank) h).1 hsees with hsees | ⟨_, v, -, -, hsees⟩
    · exact hseen w hsees
    · exact hseen' v hsees
  · rw [badge_last_seq hn ho h]
    exact hlast'

theorem InPlay.or (h : nfa.or other = .ok whole) : whole.InPlay B := by
  obtain ⟨hseen, -⟩ := (inPlay_iff hn).1 hbn
  obtain ⟨hseen', -⟩ := (inPlay_iff ho).1 hbo
  refine (inPlay_iff (wellFormed_or hn ho h)).2 ⟨fun w hsees => ?_, ?_⟩
  · rcases (sees_or hn ho (fun hnot => hnot hblank) h).1 hsees with hsees | hsees
    · exact hseen w hsees
    · exact hseen' w hsees
  · rw [badge_last_or hn ho h]
    exact hblank

end Binary

section Unary

variable (hn : nfa.WellFormed)

include hn

theorem InPlay.loop (hblank : B Badge.blank) (hb : nfa.InPlay B) (skip : Bool) :
    (nfa.loop skip).InPlay B := by
  obtain ⟨hseen, -⟩ := (inPlay_iff hn).1 hb
  refine (inPlay_iff (wellFormed_loop hn skip)).2 ⟨fun w hsees => ?_, ?_⟩
  · obtain ⟨_, v, -, -, hsees⟩ := (sees_loop hn skip fun hnot => hnot hblank).1 hsees
    exact hseen v hsees
  · rw [badge_loop_last hn]
    exact hblank

theorem InPlay.optional (hb : nfa.InPlay B) : nfa.optional.InPlay B := by
  obtain ⟨hseen, hlast⟩ := (inPlay_iff hn).1 hb
  refine (inPlay_iff (wellFormed_optional hn)).2 ⟨fun w hsees => ?_, ?_⟩
  · rcases (sees_optional hn).1 hsees with hsees | ⟨-, hnot⟩
    · exact hseen w hsees
    · exact hnot hlast
  · rw [badge_last_optional]
    exact hlast

theorem InPlay.copy (hb : nfa.InPlay fun b => B (b.shift 0)) : nfa.copy.InPlay B := by
  obtain ⟨hseen, hlast⟩ := (inPlay_iff hn).1 hb
  refine (inPlay_iff (wellFormed_copy hn)).2 ⟨fun w hsees => hseen w ((sees_copy hn).1 hsees), ?_⟩
  have hbadge : (nfa.copy.state nfa.copy.last).badge = (nfa.state nfa.last).badge.shift 0 :=
    (embedding_copy hn).badge_eq (moved_last hn)
  rw [hbadge]
  exact hlast

/-! ## Actions -/

/-- The markers of a state that no text leads to stay as they are. -/
theorem marks_addAction_of_not_reached (a : ActionId) (hp : ¬∃ w, nfa.Reaches w p) :
    ((nfa.addAction a).state p).marks = (nfa.state p).marks := by
  have hmem : p ∉ ((nfa.arm a).reachable [(nfa.arm a).start]).toList := by
    rw [mem_reachable (wellFormed_arm hn a)]
    intro hreached
    obtain ⟨w, t⟩ := hreached
    exact hp ⟨w, (trail_congr (edge_arm a)).1 t⟩
  have hnodup : ((nfa.arm a).reachable [(nfa.arm a).start]).toList.Nodup :=
    StateSet.nodup_toList (StateSet.coherent_reach _ _ _)
  have hstate : (nfa.addAction a).state p = (nfa.arm a).state p :=
    (state_modifyAll hnodup (fun _ => State.bind a) p).trans (if_neg fun h => hmem h.1)
  rw [hstate, arm, state_modify]
  split <;> rfl

section Sound

variable (hsound : ∀ p, (nfa.state p).marks.Sound)

include hsound

/-- Of the states in play only the last one may keep an unbound group: if no text leads to it. -/
theorem has_none_addAction (hp : nfa.Moved p) :
    ((nfa.addAction a).state p).marks.Has none group role ↔
      p = nfa.last ∧ (∀ w, w ∉ nfa.language) ∧ (nfa.state p).marks.Has none group role := by
  by_cases hreached : ∃ w, nfa.Reaches w p
  · rw [marks_addAction hn a hreached]
    refine iff_of_false (Marks.not_has_none_bind (hsound p)) fun h => ?_
    obtain ⟨rfl, hnot, -⟩ := h
    obtain ⟨w, t⟩ := hreached
    exact hnot w t
  · have hlast : p = nfa.last := ((moved_iff_reached hn).1 hp).resolve_left hreached
    rw [marks_addAction_of_not_reached hn a hreached, and_iff_right hlast]
    refine (and_iff_right fun w t => hreached ⟨w, ?_⟩).symm
    rwa [hlast]

/-- An action has what it and its unbound groups had on the states that texts lead to, and others keep
theirs. -/
theorem has_some_addAction :
    ((nfa.addAction a).state p).marks.Has (some b) group role ↔
      (a = b ∧ (∃ w, nfa.Reaches w p) ∧ (nfa.state p).marks.Has none group role) ∨
        (nfa.state p).marks.Has (some b) group role := by
  by_cases hreached : ∃ w, nfa.Reaches w p
  · rw [marks_addAction hn a hreached, Marks.has_bind (hsound p), and_iff_right hreached]
  · rw [marks_addAction_of_not_reached hn a hreached]
    exact (or_iff_right fun h => hreached h.2.1).symm

end Sound

end Unary

end Nfa

end LongestMatch
