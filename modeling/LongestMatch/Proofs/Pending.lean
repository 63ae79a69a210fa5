import LongestMatch.Proofs.Badges
import LongestMatch.Proofs.Events
import LongestMatch.Proofs.Forms
import LongestMatch.Proofs.Sites
import LongestMatch.Proofs.Structure

/-!
# Groups that no action has taken over

Until an action takes them over, the groups of an automaton are numbered from 0 on, and
`Nfa.nextGroup` is the next number. An action takes over the groups of the states that texts lead to,
and counting starts again. If a group is left on the last state because no text leads there, its number
is not below the counter any more, and a later action may take it over: see
`Construction.groups_leftover_behindNothing`. So adding an action is in order if there is no such group
(`Nfa.BindsAll`).

A program may be run with whatever settings (`Construction.run`); if it adds actions in this way only
(`Construction.Binding`), the numbers are what the operators take them for, and the markers of a state
follow what the steps of the program do to them (`Construction.History`): `groups_numbered`.
-/

namespace LongestMatch

open MarkEvent (Unbound Bound)

/-! ## Badges -/

namespace Badge

variable {L M : List MarkEvent → Prop} {b : Badge} {count count' offset : Nat}

/-- The unbound groups are numbered below `count`, and all markers follow some events out of `L`. -/
structure Numbered (L : List MarkEvent → Prop) (count : Nat) (b : Badge) : Prop where
  unbound : ∀ group role, b.2.Has none group role → group < count
  follows : ∃ events, L events ∧ b.2.Follows events

theorem numbered_of_eq_empty (h : b.2 = {}) (hnil : L []) : Numbered L count b := by
  refine ⟨fun group role hhas => ?_, [], hnil, ?_⟩
  · rw [h] at hhas
    exact absurd hhas Marks.not_has_empty
  · rw [h]
    exact Marks.follows_empty

theorem Numbered.mono (h : b.Numbered L count) (hle : count ≤ count')
    (hL : ∀ events, L events → M events) : b.Numbered M count' := by
  obtain ⟨events, hevents, hfollows⟩ := h.follows
  exact ⟨fun group role hhas => (h.unbound group role hhas).trans_le hle, events, hL _ hevents,
    hfollows⟩

/-- Groups that are moved behind others are numbered below both together. -/
theorem Numbered.shift (h : b.Numbered L count) (hle : offset + count ≤ maxGroups)
    (hL : ∀ events, L events → M (.shift offset :: events)) :
    (b.shift offset).Numbered M (offset + count) := by
  obtain ⟨events, hevents, hfollows⟩ := h.follows
  have hmax : maxGroups < groupNumbers := by decide
  have hshift : (b.shift offset).2.Follows (.shift offset :: events) := by
    refine hfollows.shift fun group role hhas => ?_
    have hlt := h.unbound group role hhas
    omega
  refine ⟨fun group role hhas => ?_, _, hL _ hevents, hshift⟩
  obtain ⟨earlier, hearlier, rfl⟩ := (hshift.unbound group role).1 hhas
  have hlt := h.unbound earlier role ((hfollows.unbound earlier role).2 hearlier)
  omega

end Badge

/-! ## Automata -/

namespace Nfa

variable {nfa other whole : Nfa} {L M : List MarkEvent → Prop} {a : ActionId} {group offset p : Nat}
  {role : Role}

/-- An action that is added takes over all groups of the states in play: some text leads to the last
state, or it has no unbound group. -/
def BindsAll (nfa : Nfa) : Prop :=
  (∃ w, w ∈ nfa.language) ∨ ∀ group role, ¬(nfa.state nfa.last).marks.Has none group role

/-- The groups of the states in play have the numbers that they should have, and come from events out
of `L`. -/
structure Numbered (L : List MarkEvent → Prop) (nfa : Nfa) : Prop where
  built : nfa.Built
  inPlay : nfa.InPlay (Badge.Numbered L nfa.nextGroup)

theorem bindsAll_iff (h : nfa.Built) (a : ActionId) : nfa.BindsAll ↔
    ∀ p, (nfa.addAction a).Moved p → ∀ group role,
      ¬((nfa.addAction a).state p).marks.Has none group role := by
  have hn := h.wellFormed
  constructor
  · intro hbinds p hp group role hhas
    rw [moved_addAction hn] at hp
    obtain ⟨rfl, hnot, hhas⟩ := (has_none_addAction hn h.sound hp).1 hhas
    rcases hbinds with ⟨w, hw⟩ | hbinds
    · exact hnot w hw
    · exact hbinds group role hhas
  · intro hall
    by_cases hw : ∃ w, w ∈ nfa.language
    · exact .inl hw
    · refine .inr fun group role hhas => ?_
      have hlast := moved_last hn
      refine hall nfa.last ((moved_addAction hn a).2 hlast) group role ?_
      exact (has_none_addAction hn h.sound hlast).2 ⟨rfl, fun w hmem => hw ⟨w, hmem⟩, hhas⟩

theorem Numbered.mono (h : nfa.Numbered L) (hL : ∀ events, L events → M events) : nfa.Numbered M :=
  ⟨h.built, h.inPlay.mono fun _ hb => hb.mono (Nat.le_refl _) hL⟩

theorem Numbered.of_blank (hbuilt : nfa.Built) (h : nfa.Blank) (hnil : L []) : nfa.Numbered L :=
  ⟨hbuilt, h.inPlay (Badge.numbered_of_eq_empty rfl hnil)⟩

section Binary

variable (h : nfa.Numbered M) (ho : other.Numbered L) (hnil : M [])
  (hL : ∀ events, L events → M (.shift nfa.nextGroup :: events))

include h ho hnil hL

theorem Numbered.seq (hwhole : nfa.seq other = .ok whole) : whole.Numbered M := by
  refine ⟨.seq h.built ho.built hwhole, ?_⟩
  rw [nextGroup_seq hwhole]
  have hfirst : nfa.InPlay (Badge.Numbered M (nfa.nextGroup + other.nextGroup)) :=
    h.inPlay.mono fun _ hb => hb.mono (Nat.le_add_right _ _) fun _ => id
  have hsecond : other.InPlay fun b =>
      (b.shift nfa.nextGroup).Numbered M (nfa.nextGroup + other.nextGroup) :=
    ho.inPlay.mono fun _ hb => hb.shift (add_nextGroup_le_of_seq hwhole) hL
  exact hfirst.seq h.built.wellFormed ho.built.wellFormed (Badge.numbered_of_eq_empty rfl hnil)
    hsecond hwhole

theorem Numbered.or (hwhole : nfa.or other = .ok whole) : whole.Numbered M := by
  refine ⟨.or h.built ho.built hwhole, ?_⟩
  rw [nextGroup_or hwhole]
  have hfirst : nfa.InPlay (Badge.Numbered M (nfa.nextGroup + other.nextGroup)) :=
    h.inPlay.mono fun _ hb => hb.mono (Nat.le_add_right _ _) fun _ => id
  have hsecond : other.InPlay fun b =>
      (b.shift nfa.nextGroup).Numbered M (nfa.nextGroup + other.nextGroup) :=
    ho.inPlay.mono fun _ hb => hb.shift (add_nextGroup_le_of_or hwhole) hL
  exact hfirst.or h.built.wellFormed ho.built.wellFormed (Badge.numbered_of_eq_empty rfl hnil)
    hsecond hwhole

end Binary

section Unary

variable (h : nfa.Numbered L)

include h

theorem Numbered.copy (hL : ∀ events, L events → M (.shift 0 :: events)) : nfa.copy.Numbered M := by
  refine ⟨.copy h.built, InPlay.copy h.built.wellFormed (h.inPlay.mono fun b hb => ?_)⟩
  have hshift : (b.shift 0).Numbered M (0 + nfa.nextGroup) :=
    hb.shift ((Nat.zero_add _).trans_le h.built.nextGroup_le) hL
  rwa [Nat.zero_add] at hshift

theorem Numbered.star (hnil : L []) : nfa.star.Numbered L :=
  ⟨.star h.built, h.inPlay.loop h.built.wellFormed (Badge.numbered_of_eq_empty rfl hnil) true⟩

theorem Numbered.plus (hnil : L []) : nfa.plus.Numbered L :=
  ⟨.plus h.built, h.inPlay.loop h.built.wellFormed (Badge.numbered_of_eq_empty rfl hnil) false⟩

theorem Numbered.optional : nfa.optional.Numbered L :=
  ⟨.optional h.built, h.inPlay.optional h.built.wellFormed⟩

/-- The new group has the number that the counter had. -/
theorem Numbered.markGroup (hwhole : nfa.markGroup = .ok whole) (hkept : ∀ events, L events → M events)
    (hmarked : ∀ events marker, marker.group = nfa.nextGroup → L events →
      M (.mark [marker] :: events)) : whole.Numbered M := by
  have hn := h.built.wellFormed
  obtain ⟨hgroups, -⟩ := nextGroup_markGroup hwhole
  refine ⟨.markGroup h.built hwhole, fun p hp => ?_⟩
  rw [(sameGraph_markGroup hwhole).moved_iff hn] at hp
  have hbadge := h.inPlay p hp
  obtain ⟨events, hevents, hfollows⟩ := hbadge.follows
  refine ⟨fun group role hhas => ?_, ?_⟩
  · rcases (has_markGroup hn hwhole).1 hhas with ⟨rfl, -⟩ | hhas
    · omega
    · have := hbadge.unbound group role hhas
      omega
  · -- only states on paths get a marker, the others keep the events they had
    show ∃ events, M events ∧ (whole.state p).marks.Follows events
    rw [state_markGroup hn hwhole]
    split
    · exact ⟨_, hmarked _ _ (group_roleOf _ p) hevents, hfollows.add [nfa.roleOf nfa.nextGroup p]⟩
    · exact ⟨events, hkept _ hevents, hfollows⟩

/-- The action takes over the groups that are numbered below the counter, and none is left. -/
theorem Numbered.addAction (hbinds : nfa.BindsAll)
    (hL : ∀ events, L events → M (.bind a :: events)) : (nfa.addAction a).Numbered M := by
  have hn := h.built.wellFormed
  refine ⟨.addAction a h.built, fun p hp => ⟨fun group role hhas => ?_, ?_⟩⟩
  · exact absurd hhas ((bindsAll_iff h.built a).1 hbinds p hp group role)
  · rw [moved_addAction hn] at hp
    obtain ⟨events, hevents, hfollows⟩ := (h.inPlay p hp).follows
    refine ⟨_, hL _ hevents, ?_⟩
    show ((nfa.addAction a).state p).marks.Follows _
    by_cases hreached : ∃ w, nfa.Reaches w p
    · rw [marks_addAction hn a hreached]
      exact hfollows.bind (h.built.sound p) a
    · -- the last state, which has no unbound group
      rw [marks_addAction_of_not_reached hn a hreached]
      have hlast := ((moved_iff_reached hn).1 hp).resolve_left hreached
      rcases hbinds with ⟨w, hw⟩ | hbinds
      · exact absurd ⟨w, hlast ▸ hw⟩ hreached
      · exact hfollows.bind_of_bound (hlast ▸ hbinds) a

/-- The fallback takes over nothing, as it is added to an automaton without groups. -/
theorem Numbered.completeToSkip {fallback : ActionId} (hnil : L [])
    (hskip : L [.shift nfa.nextGroup, .bind fallback])
    (hwhole : nfa.completeToSkip fallback = .ok whole) : whole.Numbered L := by
  obtain ⟨settled, hsettled, hor⟩ := Except.bind_eq_ok.1 hwhole
  have hbuilt : settled.invert.Built :=
    .invert (.or (.invert (.allPrefixes (.copy h.built))) (.copy h.built) hsettled)
  have hblank : settled.invert.Blank := Recognizer.blank_toNfa
  have hrest : settled.invert.Numbered fun events => events = [] := .of_blank hbuilt hblank rfl
  have hskipping : (settled.invert.addAction fallback).Numbered
      fun events => events = [.bind fallback] := by
    refine hrest.addAction (.inr fun group role hhas => ?_) fun _ h => by rw [h]
    have hmarks : (settled.invert.state settled.invert.last).marks = {} :=
      congrArg Prod.snd (hblank settled.invert.last)
    rw [hmarks] at hhas
    exact Marks.not_has_empty hhas
  exact h.or hskipping hnil (fun _ h => h ▸ hskip) hor

end Unary

/-- The automaton of a pattern has all its markers from one event. -/
def MarkedOnce (nfa : Nfa) (events : List MarkEvent) : Prop :=
  ∃ markers, (∀ group role, Marker.Says markers group role → group < nfa.nextGroup) ∧
    events = [.mark markers]

/-- In the automaton of a pattern the groups are numbered, and no action has any. -/
theorem numbered_ofPattern {config : Config} {pattern : String}
    (h : ofPattern config pattern = .ok nfa) : nfa.Numbered nfa.MarkedOnce := by
  have hbuilt := built_ofPattern h
  obtain ⟨t, ht⟩ := Pattern.exists_tree_of_fault (Pattern.exists_builder_of_ofPattern h).1
  have hclean := (Pattern.outlined_ofPattern h ht).clean
  have hinPlay : nfa.InPlay (Badge.Clean nfa.nextGroup) :=
    (inPlay_iff hbuilt.wellFormed).2 ⟨hclean.seen, hclean.last⟩
  refine ⟨hbuilt, hinPlay.mono fun b hb => ⟨hb.lt, _, ⟨_, fun group role hsays => ?_, rfl⟩,
    hb.sound.follows hb.unbound⟩⟩
  exact hb.lt group role ((Marks.says_markers? hb.sound).1 hsays)

theorem exists_markGroup_literal (config : Config) (s : String) :
    ∃ whole, (literal config s).markGroup = .ok whole := by
  apply exists_markGroup
  rw [nextGroup_literal]
  decide

/-- The operators that move the states of an automaton, and how far its groups are moved. -/
inductive MovedBy (nfa : Nfa) : Nat → Prop where
  | copy : MovedBy nfa 0
  | seq {first whole : Nfa} : first.seq nfa = .ok whole → MovedBy nfa first.nextGroup
  | or {first whole : Nfa} : first.or nfa = .ok whole → MovedBy nfa first.nextGroup

theorem MovedBy.add_le (h : nfa.MovedBy offset) (hle : nfa.nextGroup ≤ maxGroups) :
    offset + nfa.nextGroup ≤ maxGroups := by
  cases h with
  | copy => rwa [Nat.zero_add]
  | seq h => exact add_nextGroup_le_of_seq h
  | or h => exact add_nextGroup_le_of_or h

end Nfa

/-! ## Programs -/

namespace Construction

variable {κ : Type} {f : κ → Config} {c d : Construction κ} {nfa : Nfa}

/-- The automata of programs are those that are open to everyone. -/
theorem constructed_of_run (h : c.run f = .ok nfa) : nfa.Constructed := by
  induction c generalizing nfa with
  | empty name =>
    cases h
    exact .empty _
  | literal name s =>
    cases h
    exact .literal _ s
  | charSet name ranges inverted =>
    cases h
    exact .charSet _ ranges inverted
  | anyChar name =>
    cases h
    exact .anyChar _
  | ofPattern name pattern => exact .ofPattern h
  | copy c ih =>
    obtain ⟨n, hn, h⟩ := Except.bind_eq_ok.1 h
    cases h
    exact .copy (ih hn)
  | seq c d ihc ihd =>
    obtain ⟨n, hn, h⟩ := Except.bind_eq_ok.1 h
    obtain ⟨m, hm, h⟩ := Except.bind_eq_ok.1 h
    exact .seq (ihc hn) (ihd hm) (Nfa.ofOverflow_eq_ok.1 h)
  | or c d ihc ihd =>
    obtain ⟨n, hn, h⟩ := Except.bind_eq_ok.1 h
    obtain ⟨m, hm, h⟩ := Except.bind_eq_ok.1 h
    exact .or (ihc hn) (ihd hm) (Nfa.ofOverflow_eq_ok.1 h)
  | star c ih =>
    obtain ⟨n, hn, h⟩ := Except.bind_eq_ok.1 h
    cases h
    exact .star (ih hn)
  | plus c ih =>
    obtain ⟨n, hn, h⟩ := Except.bind_eq_ok.1 h
    cases h
    exact .plus (ih hn)
  | optional c ih =>
    obtain ⟨n, hn, h⟩ := Except.bind_eq_ok.1 h
    cases h
    exact .optional (ih hn)
  | withoutMatch c ih =>
    obtain ⟨n, hn, h⟩ := Except.bind_eq_ok.1 h
    exact .withoutMatch (ih hn) (Nfa.ofOverflow_eq_ok.1 h)
  | invert c ih =>
    obtain ⟨n, hn, h⟩ := Except.bind_eq_ok.1 h
    cases h
    exact .invert (ih hn)
  | shortest c ih =>
    obtain ⟨n, hn, h⟩ := Except.bind_eq_ok.1 h
    cases h
    exact .shortest (ih hn)
  | allPrefixes c ih =>
    obtain ⟨n, hn, h⟩ := Except.bind_eq_ok.1 h
    cases h
    exact .allPrefixes (ih hn)
  | completeToSkip c fallback ih =>
    obtain ⟨n, hn, h⟩ := Except.bind_eq_ok.1 h
    exact .completeToSkip fallback (ih hn) (Nfa.ofOverflow_eq_ok.1 h)
  | markGroup c ih =>
    obtain ⟨n, hn, h⟩ := Except.bind_eq_ok.1 h
    exact .markGroup (ih hn) (Nfa.ofOverflow_eq_ok.1 h)
  | addAction c action ih =>
    obtain ⟨n, hn, h⟩ := Except.bind_eq_ok.1 h
    cases h
    exact .addAction action (ih hn)
  | orPattern c pattern action ih =>
    obtain ⟨n, hn, h⟩ := Except.bind_eq_ok.1 h
    exact .orPattern (ih hn) h
  | seqPattern c pattern ih =>
    obtain ⟨n, hn, h⟩ := Except.bind_eq_ok.1 h
    exact .seqPattern (ih hn) h

/-- The program whose states the last step leaves where they are. It may mark some of them. -/
def kept : Construction κ → Option (Construction κ)
  | seq c _ | or c _ | star c | plus c | optional c | completeToSkip c _ | markGroup c
  | orPattern c _ _ | seqPattern c _ => some c
  | empty _ | literal _ _ | charSet _ _ _ | anyChar _ | ofPattern _ _ | copy _ | withoutMatch _
  | invert _ | shortest _ | allPrefixes _ | addAction _ _ => none

/-- What the steps of a program may have done to the markers of a state in play. -/
inductive History (f : κ → Config) : Construction κ → List MarkEvent → Prop where
  /-- The state is one that the last step adds. -/
  | fresh {c : Construction κ} : History f c []
  | kept {c d : Construction κ} {events : List MarkEvent} :
      c.kept = some d → History f d events → History f c events
  | copy {c : Construction κ} {events : List MarkEvent} :
      History f c events → History f c.copy (.shift 0 :: events)
  | seq {c d : Construction κ} {nfa : Nfa} {events : List MarkEvent} :
      c.run f = .ok nfa → History f d events → History f (c.seq d) (.shift nfa.nextGroup :: events)
  | or {c d : Construction κ} {nfa : Nfa} {events : List MarkEvent} :
      c.run f = .ok nfa → History f d events → History f (c.or d) (.shift nfa.nextGroup :: events)
  | completeToSkip {c : Construction κ} {nfa : Nfa} {fallback : ActionId} :
      c.run f = .ok nfa →
        History f (c.completeToSkip fallback) [.shift nfa.nextGroup, .bind fallback]
  | markGroup {c : Construction κ} {nfa : Nfa} {marker : Marker} {events : List MarkEvent} :
      c.run f = .ok nfa → marker.group = nfa.nextGroup → History f c events →
        History f c.markGroup (.mark [marker] :: events)
  | addAction {c : Construction κ} {a : ActionId} {events : List MarkEvent} :
      History f c events → History f (c.addAction a) (.bind a :: events)
  | ofPattern {name : κ} {pattern : String} {nfa : Nfa} {events : List MarkEvent} :
      Nfa.ofPattern (f name) pattern = .ok nfa → nfa.MarkedOnce events →
        History f (ofPattern name pattern) events
  | orPattern {c : Construction κ} {nfa other : Nfa} {pattern : String} {a : ActionId}
      {events : List MarkEvent} :
      c.run f = .ok nfa → Nfa.ofPattern nfa.config pattern = .ok other → other.MarkedOnce events →
        History f (c.orPattern pattern a) (.shift nfa.nextGroup :: .bind a :: events)
  | seqPattern {c : Construction κ} {nfa other : Nfa} {pattern : String} {events : List MarkEvent} :
      c.run f = .ok nfa → Nfa.ofPattern nfa.config pattern = .ok other → other.MarkedOnce events →
        History f (c.seqPattern pattern) (.shift nfa.nextGroup :: events)

theorem numbered_of_kept (h : nfa.Numbered (d.History f)) (hd : c.kept = some d) :
    nfa.Numbered (c.History f) :=
  h.mono fun _ => .kept hd

/-- Actions are added in the program only where they take over all groups in play. Operators on
languages forget the groups of their operand. -/
def Binding (f : κ → Config) : Construction κ → Prop
  | empty _ | literal _ _ | charSet _ _ _ | anyChar _ | ofPattern _ _ => True
  | withoutMatch _ | invert _ | shortest _ | allPrefixes _ => True
  | copy c | star c | plus c | optional c | completeToSkip c _ | markGroup c | seqPattern c _ =>
    c.Binding f
  | seq c d | or c d => c.Binding f ∧ d.Binding f
  | addAction c _ => c.Binding f ∧ ∀ nfa, c.run f = .ok nfa → nfa.BindsAll
  | orPattern c pattern _ => c.Binding f ∧ ∀ nfa other, c.run f = .ok nfa →
      Nfa.ofPattern nfa.config pattern = .ok other → other.BindsAll

/-- One step after another keeps the groups numbered. -/
theorem numbered_of_run (h : c.run f = .ok nfa) (hc : c.Binding f) : nfa.Numbered (c.History f) := by
  -- along the program, with the lemma of the last step in each case
  induction c generalizing nfa with
  | empty name =>
    cases h
    exact .of_blank (.empty _) (Nfa.blank_empty _) .fresh
  | literal name s =>
    cases h
    exact .of_blank (.literal _ s) (Nfa.blank_literal _ s) .fresh
  | charSet name ranges inverted =>
    cases h
    exact .of_blank (.charSet _ ranges inverted) (Nfa.blank_charSet _ ranges inverted) .fresh
  | anyChar name =>
    cases h
    exact .of_blank (.anyChar _) (Nfa.blank_anyChar _) .fresh
  | ofPattern name pattern => exact (Nfa.numbered_ofPattern h).mono fun _ => .ofPattern h
  | copy c ih =>
    obtain ⟨n, hn, h⟩ := Except.bind_eq_ok.1 h
    cases h
    exact (ih hn hc).copy fun _ => .copy
  | seq c d ihc ihd =>
    obtain ⟨n, hn, h⟩ := Except.bind_eq_ok.1 h
    obtain ⟨m, hm, h⟩ := Except.bind_eq_ok.1 h
    have hfirst := numbered_of_kept (c := c.seq d) (ihc hn hc.1) rfl
    exact hfirst.seq (ihd hm hc.2) .fresh (fun _ => .seq hn) (Nfa.ofOverflow_eq_ok.1 h)
  | or c d ihc ihd =>
    obtain ⟨n, hn, h⟩ := Except.bind_eq_ok.1 h
    obtain ⟨m, hm, h⟩ := Except.bind_eq_ok.1 h
    have hfirst := numbered_of_kept (c := c.or d) (ihc hn hc.1) rfl
    exact hfirst.or (ihd hm hc.2) .fresh (fun _ => .or hn) (Nfa.ofOverflow_eq_ok.1 h)
  | star c ih =>
    obtain ⟨n, hn, h⟩ := Except.bind_eq_ok.1 h
    cases h
    exact (numbered_of_kept (ih hn hc) rfl).star .fresh
  | plus c ih =>
    obtain ⟨n, hn, h⟩ := Except.bind_eq_ok.1 h
    cases h
    exact (numbered_of_kept (ih hn hc) rfl).plus .fresh
  | optional c ih =>
    obtain ⟨n, hn, h⟩ := Except.bind_eq_ok.1 h
    cases h
    exact (numbered_of_kept (ih hn hc) rfl).optional
  | withoutMatch c ih =>
    have hbuilt := (constructed_of_run h).built
    obtain ⟨n, hn, h⟩ := Except.bind_eq_ok.1 h
    obtain ⟨inside, -, h⟩ := Except.bind_eq_ok.1 (Nfa.ofOverflow_eq_ok.1 h)
    cases h
    exact .of_blank hbuilt Recognizer.blank_toNfa .fresh
  | invert c ih =>
    obtain ⟨n, hn, h⟩ := Except.bind_eq_ok.1 h
    cases h
    exact .of_blank (.invert (constructed_of_run hn).built) Recognizer.blank_toNfa .fresh
  | shortest c ih =>
    obtain ⟨n, hn, h⟩ := Except.bind_eq_ok.1 h
    cases h
    exact .of_blank (.shortest (constructed_of_run hn).built) Recognizer.blank_toNfa .fresh
  | allPrefixes c ih =>
    obtain ⟨n, hn, h⟩ := Except.bind_eq_ok.1 h
    cases h
    exact .of_blank (.allPrefixes (constructed_of_run hn).built) Recognizer.blank_toNfa .fresh
  | completeToSkip c fallback ih =>
    obtain ⟨n, hn, h⟩ := Except.bind_eq_ok.1 h
    have hfirst := numbered_of_kept (c := c.completeToSkip fallback) (ih hn hc) rfl
    exact hfirst.completeToSkip .fresh (.completeToSkip hn) (Nfa.ofOverflow_eq_ok.1 h)
  | markGroup c ih =>
    obtain ⟨n, hn, h⟩ := Except.bind_eq_ok.1 h
    exact (ih hn hc).markGroup (Nfa.ofOverflow_eq_ok.1 h) (fun _ => .kept rfl)
      fun _ _ => .markGroup hn
  | addAction c action ih =>
    obtain ⟨n, hn, h⟩ := Except.bind_eq_ok.1 h
    cases h
    exact (ih hn hc.1).addAction (hc.2 n hn) fun _ => .addAction
  | orPattern c pattern action ih =>
    obtain ⟨n, hn, h⟩ := Except.bind_eq_ok.1 h
    obtain ⟨other, hother, h⟩ := Except.bind_eq_ok.1 h
    have hfirst := numbered_of_kept (c := c.orPattern pattern action) (ih hn hc.1) rfl
    -- the groups of the pattern go over to the action before its states are moved
    have harmed : (other.addAction action).Numbered
        fun events => ∃ once, other.MarkedOnce once ∧ events = .bind action :: once :=
      (Nfa.numbered_ofPattern hother).addAction (hc.2 n other hn hother) fun once honce =>
        ⟨once, honce, rfl⟩
    refine hfirst.or harmed .fresh (fun events hevents => ?_) (Nfa.ofOverflow_eq_ok.1 h)
    obtain ⟨once, honce, rfl⟩ := hevents
    exact .orPattern hn hother honce
  | seqPattern c pattern ih =>
    obtain ⟨n, hn, h⟩ := Except.bind_eq_ok.1 h
    obtain ⟨other, hother, h⟩ := Except.bind_eq_ok.1 h
    have hfirst := numbered_of_kept (c := c.seqPattern pattern) (ih hn hc) rfl
    exact hfirst.seq (Nfa.numbered_ofPattern hother) .fresh (fun _ => .seqPattern hn hother)
      (Nfa.ofOverflow_eq_ok.1 h)

/-- At the end of a program the counter is within the limit. An action that is added then takes over
groups of states that texts lead to, and leaves those of other actions alone; it takes over all groups
in play exactly if there is none on a last state that no text leads to. If the program added its actions
in this way, then on the states in play

* the unbound groups are numbered below the counter, so that a new group gets a number of its own,
* no number gets too large when the states are moved behind those of another automaton,
* the groups follow what the steps of the program did to the state, and of what was there when an action
  was added, the unbound groups are that action's from then on, and those of other actions stay theirs. -/
theorem groups_numbered (h : c.run f = .ok nfa) :
    nfa.nextGroup ≤ maxGroups ∧
    (∀ a, (∀ p b group role, ((nfa.addAction a).state p).marks.Has (some b) group role ↔
        (a = b ∧ (∃ w, nfa.Reaches w p) ∧ (nfa.state p).marks.Has none group role) ∨
          (nfa.state p).marks.Has (some b) group role) ∧
      (nfa.BindsAll ↔ ∀ p, (nfa.addAction a).Moved p → ∀ group role,
        ¬((nfa.addAction a).state p).marks.Has none group role)) ∧
    (c.Binding f → ∀ p, nfa.Moved p →
      (∀ group role, (nfa.state p).marks.Has none group role → group < nfa.nextGroup) ∧
      (∀ role, ¬(nfa.state p).marks.Has none nfa.nextGroup role) ∧
      (∀ offset, nfa.MovedBy offset → ∀ group role, (nfa.state p).marks.Has none group role →
        group + offset < groupNumbers) ∧
      ∃ events, c.History f events ∧ (nfa.state p).marks.Follows events ∧
        ∀ a before after, events = after ++ .bind a :: before → ∀ group role,
          ((nfa.state p).marks.Has none group role ↔ Unbound after group role) ∧
          ∀ b, (nfa.state p).marks.Has (some b) group role ↔
            ((a = b ∧ Unbound before group role) ∨ Bound b before group role) ∨
              Bound b after group role) := by
  have hbuilt := (constructed_of_run h).built
  have hle := hbuilt.nextGroup_le
  refine ⟨hle, fun a => ⟨fun p b group role => ?_, Nfa.bindsAll_iff hbuilt a⟩, fun hc p hp => ?_⟩
  · exact Nfa.has_some_addAction hbuilt.wellFormed hbuilt.sound
  · have hbadge := (numbered_of_run h hc).inPlay p hp
    obtain ⟨events, hevents, hfollows⟩ := hbadge.follows
    refine ⟨hbadge.unbound, fun role hhas => ?_, fun offset hoffset group role hhas => ?_,
      events, hevents, hfollows, fun a before after heq group role => ?_⟩
    · exact Nat.lt_irrefl _ (hbadge.unbound _ role hhas)
    · have hlt := hbadge.unbound group role hhas
      have hsum := hoffset.add_le hle
      have hmax : maxGroups < groupNumbers := by decide
      omega
    · subst heq
      exact ⟨(hfollows.unbound group role).trans MarkEvent.unbound_append_bind,
        fun b => (hfollows.bound b group role).trans MarkEvent.bound_append_bind⟩

/-- A marked `a` with an action, and then a marked `b`, whose group is the only one that is unbound. -/
theorem groups_numbered_markedTwice :
    ∃ nfa, (seq (addAction (markGroup (literal () "a")) 7) (markGroup (literal () "b"))).run
        (fun _ => {}) = .ok nfa ∧ nfa.nextGroup = 1 ∧
      ∀ p, nfa.Moved p → ∀ role, ¬(nfa.state p).marks.Has none 1 role := by
  obtain ⟨a, ha⟩ := Nfa.exists_markGroup_literal {} "a"
  obtain ⟨b, hb⟩ := Nfa.exists_markGroup_literal {} "b"
  have hgroups : (a.addAction 7).nextGroup + b.nextGroup = 1 := by
    rw [(Nfa.nextGroup_markGroup hb).1, Nfa.nextGroup_literal]
    rfl
  obtain ⟨nfa, hnfa⟩ := Nfa.exists_seq_eq_ok (hgroups.trans_le (by decide))
  have hmarked : (markGroup (literal () "a")).run (fun _ => {}) = .ok a :=
    Except.bind_eq_ok.2 ⟨_, rfl, Nfa.ofOverflow_eq_ok.2 ha⟩
  have hrun : (seq (addAction (markGroup (literal () "a")) 7) (markGroup (literal () "b"))).run
      (fun _ => {}) = .ok nfa :=
    Except.bind_eq_ok.2 ⟨_, Except.bind_eq_ok.2 ⟨a, hmarked, rfl⟩, Except.bind_eq_ok.2 ⟨b,
      Except.bind_eq_ok.2 ⟨_, rfl, Nfa.ofOverflow_eq_ok.2 hb⟩, Nfa.ofOverflow_eq_ok.2 hnfa⟩⟩
  have hbinding : (seq (addAction (markGroup (literal () "a")) 7) (markGroup (literal () "b"))).Binding
      (fun _ => {}) := by
    refine ⟨⟨trivial, fun n hn => ?_⟩, trivial⟩
    obtain rfl : a = n := Except.ok.inj (hmarked.symm.trans hn)
    refine .inl ⟨['a'], ?_⟩
    rw [(Nfa.sameGraph_markGroup ha).language_eq, (Nfa.speaks_literal {} "a").language_eq]
    rfl
  have hone : nfa.nextGroup = 1 := (Nfa.nextGroup_seq hnfa).trans hgroups
  obtain ⟨-, -, hnumbered⟩ := groups_numbered hrun
  refine ⟨nfa, hrun, hone, fun p hp => ?_⟩
  obtain ⟨-, hfresh, -⟩ := hnumbered hbinding p hp
  rwa [hone] at hfresh

/-- A marked `a` behind an automaton that matches nothing: no text leads to the last state. The action
that is added leaves its group there, though the counter is back at 0. After a further step another
action takes it over. -/
theorem groups_leftover_behindNothing :
    ∃ nfa, (addAction (seq (empty ()) (markGroup (literal () "a"))) 7).run (fun _ => {}) = .ok nfa ∧
      nfa.nextGroup = 0 ∧ nfa.Moved nfa.last ∧ (nfa.state nfa.last).marks.Has none 0 .stop ∧
      ((nfa.optional.addAction 8).state nfa.last).marks.Has (some 8) 0 .stop := by
  have hliteral := Nfa.speaks_literal {} "a"
  obtain ⟨marked, hmarked⟩ := Nfa.exists_markGroup_literal {} "a"
  have hbuilt : marked.Built := .markGroup (.literal {} "a") hmarked
  have hgroups : (Nfa.empty {}).nextGroup + marked.nextGroup = 1 := by
    rw [(Nfa.nextGroup_markGroup hmarked).1, Nfa.nextGroup_literal]
    rfl
  obtain ⟨whole, hwhole⟩ := Nfa.exists_seq_eq_ok (hgroups.trans_le (by decide))
  have hrun : (addAction (seq (empty ()) (markGroup (literal () "a"))) 7).run (fun _ => {}) =
      .ok (whole.addAction 7) :=
    Except.bind_eq_ok.2 ⟨whole, Except.bind_eq_ok.2 ⟨_, rfl, Except.bind_eq_ok.2 ⟨marked,
      Except.bind_eq_ok.2 ⟨_, rfl, Nfa.ofOverflow_eq_ok.2 hmarked⟩, Nfa.ofOverflow_eq_ok.2 hwhole⟩⟩,
      rfl⟩
  have hempty := Nfa.Built.empty {}
  have hw : whole.Built := .seq hempty hbuilt hwhole
  have hn := hw.wellFormed
  have hnot : ∀ w, w ∉ whole.language := by
    intro w hmem
    rw [Nfa.language_seq hempty.wellFormed hbuilt.wellFormed hwhole] at hmem
    obtain ⟨u, t, -⟩ := hmem
    exact hempty.wellFormed.start_ne_last
      ((trail_of_no_edge fun _ _ => Nfa.no_edge_empty).1 t).2.symm
  have hlast : (whole.state whole.last).marks.Has none 0 .stop := by
    have hpath : (Nfa.literal {} "a").OnPath (Nfa.literal {} "a").last := by
      have hmem : ['a'] ∈ (Nfa.literal {} "a").language := by
        rw [hliteral.language_eq]
        rfl
      exact ⟨⟨['a'], hmem⟩, [], .nil _⟩
    have hrole : ((Nfa.literal {} "a").roleOf 0 (Nfa.literal {} "a").last).has .stop = true := by
      rw [Nfa.roleOf, if_neg hliteral.wellFormed.start_ne_last.symm, if_pos rfl]
      rfl
    have hmarks : (marked.state marked.last).marks.Has none 0 .stop := by
      rw [(Nfa.sameGraph_markGroup hmarked).last_eq, Nfa.has_markGroup hliteral.wellFormed hmarked,
        Nfa.nextGroup_literal]
      exact .inl ⟨rfl, hpath, hrole⟩
    have hmoved : (whole.state whole.last).marks = (marked.state marked.last).marks.shiftUnbound 0 :=
      congrArg Prod.snd (Nfa.badge_last_seq hempty.wellFormed hbuilt.wellFormed hwhole)
    rw [hmoved]
    exact Marks.has_shiftUnbound_none.2 ⟨0, hmarks, rfl⟩
  have harmed : (whole.addAction 7).Built := .addAction 7 hw
  have hleft : ((whole.addAction 7).state (whole.addAction 7).last).marks.Has none 0 .stop := by
    have heq : (whole.addAction 7).last = whole.last := (Nfa.sameGraph_addAction whole 7).last_eq
    rw [heq]
    exact (Nfa.has_none_addAction hn hw.sound (Nfa.moved_last hn)).2 ⟨rfl, hnot, hlast⟩
  refine ⟨whole.addAction 7, hrun, rfl, Nfa.moved_last harmed.wellFormed, hleft, ?_⟩
  -- with an option the empty text leads to the last state
  have hoptional : (whole.addAction 7).optional.Built := .optional harmed
  have hkept : ((whole.addAction 7).optional.state (whole.addAction 7).last).marks =
      ((whole.addAction 7).state (whole.addAction 7).last).marks :=
    congrArg Prod.snd Nfa.badge_last_optional
  have hreached : [] ∈ (whole.addAction 7).optional.language :=
    (Nfa.mem_language_optional harmed.wellFormed).2 (.inr rfl)
  exact (Nfa.has_some_addAction hoptional.wellFormed hoptional.sound).2
    (.inl ⟨rfl, ⟨[], hreached⟩, hkept ▸ hleft⟩)

end Construction

end LongestMatch
