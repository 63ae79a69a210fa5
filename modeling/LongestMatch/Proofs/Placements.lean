import LongestMatch.Proofs.Badges

/-!
# Where the markers of a group are put

A group is marked once, on the states that are on paths through it then. Later operators move these
states, and renumber the groups. A `Placement` follows the states only: it says which of them have
been marked for a group, and in which role, whatever number the group has. `Nfa.Lists` goes along
with the operators and lists the placements as the groups of a pattern are listed: those of the
operands one after the other, and a new group after those inside it.

* `Agrees.seq`, `Agrees.or` — side by side, the roles of the second automaton are found where its
  states are, and its numbers are shifted by the length of the first list.
* `Lists.agrees` — however an automaton has been put together, its markers of number `i` are those
  put for the group at place `i` of the list.
-/

namespace LongestMatch

open scoped Computability

/-! ## Placements -/

/-- A group, with the states that have been marked for it. -/
structure Placement where
  /-- The texts of the group. -/
  whole : Language Char
  /-- The states that have been marked, and their roles. -/
  roles : Nat → Role → Prop

namespace Nfa

variable {nfa other both whole : Nfa} {p q i s t source goal : Nat} {role : Role}
  {owner : Option ActionId} {gs hs : List Placement}

/-- The placement among states that have been moved along. -/
def relocate (nfa : Nfa) (f : Nat → Nat) (g : Placement) : Placement :=
  { g with roles := fun q role => ∃ p, nfa.Moved p ∧ f p = q ∧ g.roles p role }

/-- The placement of the group that is made of the automaton. -/
def placement (nfa : Nfa) : Placement where
  whole := nfa.language
  roles p role := nfa.OnPath p ∧ (nfa.roleOf nfa.nextGroup p).has role = true

/-- Where a state of `other` is when its start has been joined to the state `joint` of `nfa`: behind
the states of `nfa`, but a start that replaces the joint is found there. -/
def homeOf (nfa other : Nfa) (joint p : Nat) : Nat :=
  if p = other.start ∧ (nfa.state joint).isBare then joint else other.rename nfa.states.size p

/-- The automaton has been put together in such a way that these are its groups, in this order. -/
inductive Lists : Nfa → List Placement → Prop where
  /-- An automaton without markers. -/
  | blank {nfa : Nfa} : nfa.Built → nfa.Blank → nfa.nextGroup = 0 → Lists nfa []
  | copy {nfa : Nfa} {gs : List Placement} :
      Lists nfa gs → Lists nfa.copy (gs.map (nfa.relocate (nfa.rename 0)))
  | seq {nfa other whole : Nfa} {gs hs : List Placement} :
      Lists nfa gs → Lists other hs → nfa.seq other = .ok whole →
        Lists whole (gs ++ hs.map (other.relocate (nfa.homeOf other nfa.last)))
  | or {nfa other whole : Nfa} {gs hs : List Placement} :
      Lists nfa gs → Lists other hs → nfa.or other = .ok whole →
        Lists whole (gs ++ hs.map (other.relocate (nfa.homeOf other nfa.start)))
  | star {nfa : Nfa} {gs : List Placement} : Lists nfa gs → Lists nfa.star gs
  | plus {nfa : Nfa} {gs : List Placement} : Lists nfa gs → Lists nfa.plus gs
  | optional {nfa : Nfa} {gs : List Placement} : Lists nfa gs → Lists nfa.optional gs
  | markGroup {nfa whole : Nfa} {gs : List Placement} :
      Lists nfa gs → nfa.markGroup = .ok whole → Lists whole (gs ++ [nfa.placement])

theorem Lists.built (h : nfa.Lists gs) : nfa.Built := by
  induction h with
  | blank hbuilt => exact hbuilt
  | copy _ ih => exact .copy ih
  | seq _ _ h ihn iho => exact .seq ihn iho h
  | or _ _ h ihn iho => exact .or ihn iho h
  | star _ ih => exact .star ih
  | plus _ ih => exact .plus ih
  | optional _ ih => exact .optional ih
  | markGroup _ h ih => exact .markGroup ih h

/-- The list is as long as the counter says. -/
theorem Lists.nextGroup_eq (h : nfa.Lists gs) : nfa.nextGroup = gs.length := by
  induction h with
  | blank _ _ hgroups => exact hgroups
  | copy _ ih => exact ih.trans (List.length_map _).symm
  | seq _ _ h ihn iho => rw [nextGroup_seq h, ihn, iho, List.length_append, List.length_map]
  | or _ _ h ihn iho => rw [nextGroup_or h, ihn, iho, List.length_append, List.length_map]
  | star _ ih => exact ih
  | plus _ ih => exact ih
  | optional _ ih => exact ih
  | markGroup _ h ih =>
    rw [(nextGroup_markGroup h).1, ih, List.length_append, List.length_singleton]

/-! ## What joining does to badges -/

theorem badge_modify {f : State → State} (hf : ∀ s, (f s).badge = s.badge) (id p : Nat) :
    ((nfa.modify id f).state p).badge = (nfa.state p).badge := by
  rw [state_modify]
  split
  · exact hf _
  · rfl

theorem badge_addEps (id : Nat) (ids : List Nat) (p : Nat) :
    ((nfa.modify id (State.addEps ids)).state p).badge = (nfa.state p).badge :=
  badge_modify (f := State.addEps ids) (fun _ => rfl) id p

/-- A bare state gets the badge of the state that is joined to it, and leaves a blank one there. -/
theorem badge_join (h : nfa.Joinable source goal) (p : Nat) :
    ((nfa.join source goal).state p).badge =
      if (nfa.state source).isBare then
        if p = source then (nfa.state goal).badge
        else if p = goal then Badge.blank else (nfa.state p).badge
      else (nfa.state p).badge := by
  unfold join
  simp only
  split
  · next himp =>
    -- nothing is moved, and both badges are blank if the first state is bare
    refine (badge_addEps _ _ _).trans
      ((badge_modify (f := fun s => { s with eps := [] }) (fun _ => rfl) _ _).trans ?_)
    have hgoal := (trans_of_isImportant_eq_false (by simpa using himp)).2
    split
    · next hbare =>
      have hsource := (targets_of_isBare hbare).2
      split
      · next hp => rw [hp, hsource, hgoal]
      · split
        · next hp => rw [hp, hgoal]
        · rfl
    · rfl
  · split
    · rw [state_modify, size_modify, state_modify]
      have hsource : source < nfa.states.size := h.source_lt
      have hgoal : goal < nfa.states.size := h.goal_lt
      simp only [hsource, hgoal, and_true]
      split
      · rfl
      · split <;> rfl
    · exact badge_addEps _ _ _

/-- Who has a property when the state `goal` has been replaced by `source`. -/
theorem exists_replaced_iff {P : Nat → Prop} (h : ¬P source) :
    (∃ p, (if p = goal then source else p) = q ∧ P p) ↔
      if q = source then P goal else q ≠ goal ∧ P q := by
  split
  · next hq =>
    constructor
    · rintro ⟨p, hp, hhas⟩
      split at hp
      · next heq => exact heq ▸ hhas
      · exact absurd (hp.trans hq ▸ hhas) h
    · exact fun hhas => ⟨goal, (if_pos rfl).trans hq.symm, hhas⟩
  · next hq =>
    constructor
    · rintro ⟨p, hp, hhas⟩
      split at hp
      · exact absurd hp.symm hq
      · next hne => exact hp ▸ ⟨hne, hhas⟩
    · exact fun ⟨hne, hhas⟩ => ⟨q, if_neg hne, hhas⟩

/-- Where a state is found after joining. -/
theorem has_join (h : nfa.Joinable source goal) :
    ((nfa.join source goal).state q).marks.Has owner i role ↔
      ∃ p, (if p = goal ∧ (nfa.state source).isBare then source else p) = q ∧
        (nfa.state p).marks.Has owner i role := by
  have hmarks : ((nfa.join source goal).state q).marks =
    ((nfa.join source goal).state q).badge.2 := rfl
  rw [hmarks, badge_join h]
  by_cases hbare : (nfa.state source).isBare
  · have hsource : ¬(nfa.state source).marks.Has owner i role := by
      have hblank : (nfa.state source).marks = {} := congrArg Prod.snd (targets_of_isBare hbare).2
      rw [hblank]
      exact Marks.not_has_empty
    simp only [hbare, and_true, if_true]
    rw [exists_replaced_iff (P := fun p => (nfa.state p).marks.Has owner i role) hsource]
    split
    · rfl
    · split
      · next heq => exact iff_of_false Marks.not_has_empty fun h => h.1 heq
      · next hne => exact (and_iff_right hne).symm
  · have hsame : ∀ p, (if p = goal ∧ (nfa.state source).isBare then source else p) = p :=
      fun p => if_neg fun h => hbare h.2
    simp only [if_neg hbare, hsame, exists_eq_left]
    rfl

theorem has_iff_of_badge_eq (h : (whole.state p).badge = (nfa.state q).badge) :
    (whole.state p).marks.Has owner i role ↔ (nfa.state q).marks.Has owner i role :=
  iff_of_eq (congrArg (fun b : Badge => b.2.Has owner i role) h)

theorem badge_push {s : State} (h : whole.states = nfa.states.push s) (hs : s.badge = Badge.blank)
    (p : Nat) : (whole.state p).badge = (nfa.state p).badge := by
  rw [state_push h]
  split
  · next hp => rw [hs, hp, state_of_size_le (Nat.le_refl _)]; rfl
  · rfl

theorem has_joinStarts (h : nfa.Joinable nfa.start goal) :
    ((nfa.joinStarts goal).state q).marks.Has owner i role ↔
      ∃ p, (if p = goal ∧ (nfa.state nfa.start).isBare then nfa.start else p) = q ∧
        (nfa.state p).marks.Has owner i role := by
  unfold joinStarts
  split
  · exact has_join h
  · next hneutral =>
    -- a state with markers or an action is not bare, and the new start is blank
    have hbare : ¬(nfa.state nfa.start).isBare := by
      intro hbare
      simp only [State.isBare, State.isNeutral, Bool.and_eq_true] at hbare hneutral
      exact hneutral ⟨hbare.1.2, hbare.2⟩
    have hsame : ∀ p, (if p = goal ∧ (nfa.state nfa.start).isBare then nfa.start else p) = p :=
      fun p => if_neg fun h => hbare h.2
    simp only [hsame, exists_eq_left]
    let grown : Nfa :=
      { nfa with
        states := nfa.states.push { eps := [nfa.start, goal] }
        start := nfa.states.size }
    have hbadge : (grown.state q).badge = (nfa.state q).badge := badge_push rfl rfl q
    exact has_iff_of_badge_eq hbadge

theorem badge_joinLasts (other p : Nat) :
    ((nfa.joinLasts other).state p).badge = (nfa.state p).badge := by
  unfold joinLasts
  split
  · exact badge_addEps _ _ _
  · split
    · exact badge_addEps _ _ _
    · exact (badge_addEps _ _ _).trans ((badge_addEps _ _ _).trans (badge_push rfl rfl p))

theorem badge_loop_eq (hn : nfa.WellFormed) (skip : Bool) (p : Nat) :
    ((nfa.loop skip).state p).badge = (nfa.state p).badge := by
  rw [badge_loop hn]
  split
  · next hp => rw [hp, state_of_size_le (Nat.le_refl _)]; rfl
  · rfl

/-! ## Numbers and places -/

/-- The markers that no action has are those put for the groups, numbered by their places. -/
def Agrees (nfa : Nfa) (gs : List Placement) : Prop :=
  ∀ p i role, (nfa.state p).marks.Has none i role ↔ ∃ g, gs[i]? = some g ∧ g.roles p role

theorem Agrees.lt_length (h : nfa.Agrees gs) (hhas : (nfa.state p).marks.Has none i role) :
    i < gs.length := by
  obtain ⟨g, hg, -⟩ := (h p i role).1 hhas
  exact (List.getElem?_eq_some_iff.1 hg).1

/-- A place in two lists in a row is one of the first list, or of the second behind it. -/
theorem exists_getElem?_append {P : Placement → Prop} :
    (∃ g, (gs ++ hs)[i]? = some g ∧ P g) ↔ (∃ g, gs[i]? = some g ∧ P g) ∨
      gs.length ≤ i ∧ ∃ g, hs[i - gs.length]? = some g ∧ P g := by
  rw [List.getElem?_append]
  split
  · next hlt => exact (or_iff_left fun h => Nat.not_le_of_lt hlt h.1).symm
  · next hge =>
    have hle := Nat.le_of_not_lt hge
    rw [and_iff_right hle, List.getElem?_eq_none hle]
    exact (or_iff_right fun ⟨g, hg, _⟩ => by cases hg).symm

/-- Among states that have been moved along, a role stands where its state has been moved. -/
theorem exists_getElem?_map_relocate {f : Nat → Nat} :
    (∃ g, (gs.map (nfa.relocate f))[i]? = some g ∧ g.roles q role) ↔
      ∃ p, nfa.Moved p ∧ f p = q ∧ ∃ g, gs[i]? = some g ∧ g.roles p role := by
  simp only [List.getElem?_map, Option.map_eq_some_iff]
  constructor
  · rintro ⟨_, ⟨g, hg, rfl⟩, p, hp, rfl, hrole⟩
    exact ⟨p, hp, rfl, g, hg, hrole⟩
  · rintro ⟨p, hp, rfl, g, hg, hrole⟩
    exact ⟨_, ⟨g, hg, rfl⟩, p, hp, rfl, hrole⟩

/-- Moved states have the groups that they had, behind others. -/
theorem Embedding.has_iff {f : Nat → Nat} {base offset : Nat}
    (he : other.Embedding whole other.Moved f base offset) (hh : other.Agrees hs)
    (hle : offset + hs.length ≤ maxGroups) (hq : base ≤ q) :
    (whole.state q).marks.Has none i role ↔ offset ≤ i ∧ ∃ p, other.Moved p ∧ f p = q ∧
      (other.state p).marks.Has none (i - offset) role := by
  rcases Nat.lt_or_ge q whole.states.size with hlt | hge
  · obtain ⟨p, hp, rfl⟩ := he.surjective q hq hlt
    have hmarks : (whole.state (f p)).marks = (other.state p).marks.shiftUnbound offset :=
      congrArg Prod.snd (he.badge_eq hp)
    have hmax : maxGroups ≤ groupNumbers := by decide
    rw [hmarks, Marks.has_shiftUnbound_of_lt (fun _ _ hhas => hh.lt_length hhas) (hle.trans hmax)]
    refine and_congr_right fun _ => ⟨fun hhas => ⟨p, hp, rfl, hhas⟩, ?_⟩
    rintro ⟨p', hp', heq, hhas⟩
    exact he.injective p' p hp' hp heq ▸ hhas
  · rw [state_of_size_le hge]
    refine iff_of_false Marks.not_has_empty ?_
    rintro ⟨-, p, hp, rfl, -⟩
    have := he.lt_size p hp
    omega

theorem Agrees.copy (h : nfa.Agrees gs) (hn : nfa.WellFormed) (hle : gs.length ≤ maxGroups) :
    nfa.copy.Agrees (gs.map (nfa.relocate (nfa.rename 0))) := by
  intro q i role
  rw [exists_getElem?_map_relocate, (embedding_copy hn).has_iff h ((Nat.zero_add _).trans_le hle)
    (Nat.zero_le q), and_iff_right (Nat.zero_le i)]
  simp only [← h _ _ role]
  rfl

section Beside

variable (hb : nfa.Beside other both s t)

include hb

theorem Beside.rename_eq_iff (hp : other.Moved p) :
    other.rename nfa.states.size p = s ↔ p = other.start := by
  rw [hb.s_eq]
  refine ⟨fun heq => ?_, fun heq => by rw [heq]⟩
  exact hb.embedding.injective _ _ hp (moved_start hb.second) heq

variable (hg : nfa.Agrees gs) (hh : other.Agrees hs) (hgs : nfa.nextGroup = gs.length)
  (hle : gs.length + hs.length ≤ maxGroups)

include hh hgs hle

/-- Side by side, the groups of the second automaton come after those of the first. -/
theorem Beside.has_iff : (both.state q).marks.Has none i role ↔
    (nfa.state q).marks.Has none i role ∨
      gs.length ≤ i ∧ ∃ p, other.Moved p ∧ other.rename nfa.states.size p = q ∧
        (other.state p).marks.Has none (i - gs.length) role := by
  rcases Nat.lt_or_ge q nfa.states.size with hlt | hge
  · rw [hb.state_first q hlt]
    refine (or_iff_left ?_).symm
    rintro ⟨-, p, hp, rfl, -⟩
    have := hb.embedding.base_le p hp
    omega
  · rw [state_of_size_le hge, or_iff_right Marks.not_has_empty]
    exact (hgs ▸ hb.embedding).has_iff hh hle hge

include hg

/-- If the start of the second automaton has been joined to a state of the first, each role stands
where its state is found then. -/
theorem Beside.agrees {joint : Nat}
    (hwhole : ∀ q i role, (whole.state q).marks.Has none i role ↔
      ∃ p, (if p = s ∧ (nfa.state joint).isBare then joint else p) = q ∧
        (both.state p).marks.Has none i role) :
    whole.Agrees (gs ++ hs.map (other.relocate (nfa.homeOf other joint))) := by
  intro q i role
  have hhome : ∀ p, other.Moved p → nfa.homeOf other joint p =
      if other.rename nfa.states.size p = s ∧ (nfa.state joint).isBare then joint
      else other.rename nfa.states.size p := by
    intro p hp
    simp only [homeOf, hb.rename_eq_iff hp]
  -- the start of the second automaton lies behind all that the first one has marked
  have hkept : ∀ {p}, (nfa.state p).marks.Has none i role → p ≠ s := by
    rintro p hhas rfl
    rw [state_of_size_le hb.base_le_s] at hhas
    exact Marks.not_has_empty hhas
  rw [exists_getElem?_append, exists_getElem?_map_relocate, hwhole, ← hg]
  simp only [hb.has_iff hh hgs hle, ← hh _ _ role]
  constructor
  · rintro ⟨p, rfl, hfirst | ⟨hi, p', hp', rfl, hsecond⟩⟩
    · rw [if_neg fun h => hkept hfirst h.1]
      exact .inl hfirst
    · exact .inr ⟨hi, p', hp', hhome p' hp', hsecond⟩
  · rintro (hfirst | ⟨hi, p, hp, rfl, hsecond⟩)
    · exact ⟨q, if_neg fun h => hkept hfirst h.1, .inl hfirst⟩
    · exact ⟨_, (hhome p hp).symm, .inr ⟨hi, p, hp, rfl, hsecond⟩⟩

end Beside

theorem Agrees.of_badge_eq (h : nfa.Agrees gs)
    (hbadge : ∀ p, (whole.state p).badge = (nfa.state p).badge) : whole.Agrees gs :=
  fun p i role => (has_iff_of_badge_eq (hbadge p)).trans (h p i role)

section Binary

variable (hn : nfa.Lists gs) (ho : other.Lists hs) (hg : nfa.Agrees gs) (hh : other.Agrees hs)

include hn ho hg hh

theorem Agrees.seq (h : nfa.seq other = .ok whole) :
    whole.Agrees (gs ++ hs.map (other.relocate (nfa.homeOf other nfa.last))) := by
  have hle := add_nextGroup_le_of_seq h
  rw [hn.nextGroup_eq, ho.nextGroup_eq] at hle
  obtain ⟨both, s, t, htake, rfl⟩ := seq_eq_ok.1 h
  have hb := (beside_of_takeIn hn.built.wellFormed ho.built.wellFormed htake).1
  have hlast := hn.built.wellFormed.last_lt
  refine hb.agrees hg hh hn.nextGroup_eq hle fun q i role => ?_
  show ((both.join both.last s).state q).marks.Has none i role ↔ _
  rw [hb.last_eq, ← hb.state_first _ hlast]
  exact has_join (hb.joinable hlast)

theorem Agrees.or (h : nfa.or other = .ok whole) :
    whole.Agrees (gs ++ hs.map (other.relocate (nfa.homeOf other nfa.start))) := by
  have hle := add_nextGroup_le_of_or h
  rw [hn.nextGroup_eq, ho.nextGroup_eq] at hle
  obtain ⟨both, s, t, htake, rfl⟩ := or_eq_ok.1 h
  have hb := (beside_of_takeIn hn.built.wellFormed ho.built.wellFormed htake).1
  have hstart := hn.built.wellFormed.start_lt
  have hjoinable : both.Joinable both.start s := hb.start_eq ▸ hb.joinable hstart
  refine hb.agrees hg hh hn.nextGroup_eq hle fun q i role => ?_
  rw [← hb.state_first _ hstart, ← hb.start_eq]
  exact (has_iff_of_badge_eq (badge_joinLasts t q)).trans (has_joinStarts hjoinable)

end Binary

theorem Agrees.markGroup (hn : nfa.Lists gs) (hg : nfa.Agrees gs)
    (h : nfa.markGroup = .ok whole) : whole.Agrees (gs ++ [nfa.placement]) := by
  intro p i role
  rw [has_markGroup hn.built.wellFormed h, exists_getElem?_append, ← hg, or_comm, hn.nextGroup_eq]
  refine or_congr_right ?_
  constructor
  · rintro ⟨rfl, hpath, hrole⟩
    refine ⟨Nat.le_refl _, nfa.placement, ?_, hpath, hn.nextGroup_eq ▸ hrole⟩
    rw [Nat.sub_self]
    rfl
  · rintro ⟨hi, g, hg, hpath⟩
    rw [List.getElem?_singleton] at hg
    split at hg
    · next heq =>
      cases hg
      exact ⟨by omega, hn.nextGroup_eq ▸ hpath⟩
    · cases hg

/-- However an automaton has been put together, the markers of a number that no action has are those
that have been put for the group at this place of the list. -/
theorem Lists.agrees (h : nfa.Lists gs) : nfa.Agrees gs := by
  -- along the operators: each lemma says where the states of the operands are found
  induction h with
  | @blank nfa _ hblank _ =>
    intro p i role
    have hmarks : (nfa.state p).marks = {} := congrArg Prod.snd (hblank p)
    rw [hmarks]
    exact iff_of_false Marks.not_has_empty fun ⟨g, hg, _⟩ => by cases hg
  | copy hn ih => exact ih.copy hn.built.wellFormed (hn.nextGroup_eq ▸ hn.built.nextGroup_le)
  | seq hn ho h ihn iho => exact .seq hn ho ihn iho h
  | or hn ho h ihn iho => exact .or hn ho ihn iho h
  | star hn ih => exact ih.of_badge_eq (badge_loop_eq hn.built.wellFormed true)
  | plus hn ih => exact ih.of_badge_eq (badge_loop_eq hn.built.wellFormed false)
  | @optional nfa _ _ ih => exact ih.of_badge_eq (badge_link nfa.start nfa.last)
  | markGroup hn h ih => exact ih.markGroup hn h

end Nfa

end LongestMatch
