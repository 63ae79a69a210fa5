import LongestMatch.Proofs.Analysis
import LongestMatch.Proofs.Exactness
import LongestMatch.Proofs.Offsets
import LongestMatch.Proofs.Roles
import LongestMatch.Proofs.Spans

/-!
# What a match meets on its way

A match passes from state to state, and the spans are read off the markers of these states. With an
action on an automaton that had none, a state of the compiled automaton has the markers that the
states of the set have: after each prefix of the match the roles are met that the automaton shows
for this prefix (`Nfa.Met`, `Nfa.exists_met_of_match`).

Which roles are shown for a text can be decided (`Nfa.mem_showing_iff`), so the track of a group
along a text can be computed (`Nfa.trackOf`). It is the one of every match that adds this text
(`Nfa.Met.ofWay_eq`).
-/

namespace LongestMatch

/-! ## The markers of a set of states -/

namespace Nfa

open Marker (Says)

variable {nfa : Nfa} {set : List Nat} {a b : ActionId} {group : Nat} {role : Role}

theorem marksOfSet_invariant {P : Marks → Prop} (hstart : P {})
    (hadd : ∀ marks, P marks → ∀ p ∈ set, P (marks.addBound (nfa.state p).marks)) :
    P (nfa.marksOfSet set) := by
  unfold marksOfSet
  generalize ({} : Marks) = marks at hstart
  induction set generalizing marks with
  | nil => exact hstart
  | cons p set ih =>
    obtain ⟨hp, hset⟩ : P (marks.addBound (nfa.state p).marks) ∧ _ :=
      ⟨hadd marks hstart p List.mem_cons_self,
        fun marks hmarks q hq => hadd marks hmarks q (List.mem_cons_of_mem p hq)⟩
    exact ih hset _ hp

theorem has_marksOfSet : (nfa.marksOfSet set).Has (some a) group role ↔
    ∃ p ∈ set, (nfa.state p).marks.Has (some a) group role := by
  have hfold : ∀ marks : Marks, (set.foldl (fun marks id => marks.addBound (nfa.state id).marks)
      marks).Has (some a) group role ↔
        (∃ p ∈ set, (nfa.state p).marks.Has (some a) group role) ∨
          marks.Has (some a) group role := by
    intro marks
    induction set generalizing marks with
    | nil => simp
    | cons p set ih =>
      rw [List.foldl_cons, ih, Marks.has_addBound]
      simp only [List.mem_cons, exists_eq_or_imp]
      rw [or_left_comm, or_assoc]
  exact (hfold {}).trans (or_iff_left Marks.not_has_empty)

theorem inOrder_marksOfSet (nfa : Nfa) (set : List Nat) : (nfa.marksOfSet set).InOrder :=
  marksOfSet_invariant Marks.inOrder_empty fun _ hmarks _ _ => hmarks.addBound _

theorem sound_marksOfSet (h : ∀ p ∈ set, (nfa.state p).marks.Sound) :
    (nfa.marksOfSet set).Sound :=
  marksOfSet_invariant Marks.sound_empty fun _ hmarks p hp => hmarks.addBound (h p hp)

end Nfa

/-! ## The markers of an action -/

namespace Dfa

open Marker (Says)

variable {dfa : Dfa} {i group : Nat} {a : ActionId} {role : Role}

theorem markersFor_invariant {P : List Marker → Prop}
    (hstart : P (((dfa.state i).marks.markers? (some a)).getD []))
    (hadd : ∀ list, P list → ∀ part,
      P (Marker.insertAll list (((dfa.state i).marks.markers? (some part)).getD []))) :
    P (dfa.markersFor i a) := by
  have hfold : ∀ (parts : List ActionId) (list : List Marker), P list →
      P (parts.foldl (fun list part =>
        Marker.insertAll list (((dfa.state i).marks.markers? (some part)).getD [])) list) := by
    intro parts
    induction parts with
    | nil => exact fun list hlist => hlist
    | cons part parts ih => exact fun list hlist => ih _ (hadd list hlist part)
  exact hfold _ _ hstart

theorem ordered_markersFor (h : (dfa.state i).marks.InOrder) :
    Marker.Ordered (dfa.markersFor i a) := by
  apply markersFor_invariant (P := Marker.Ordered) ?_ fun list hlist part => hlist.insertAll _
  rcases (dfa.state i).marks.getD_markers?_cases (some a) with heq | ⟨e, he, heq⟩
  · rw [heq]
    exact List.Pairwise.nil
  · rw [heq]
    exact h e he

theorem proper_markersFor (h : (dfa.state i).marks.Sound) :
    ∀ m ∈ dfa.markersFor i a, m.Proper := by
  have hfound : ∀ owner, ∀ m ∈ ((dfa.state i).marks.markers? owner).getD [], m.Proper := by
    intro owner m hm
    rcases (dfa.state i).marks.getD_markers?_cases owner with heq | ⟨e, he, heq⟩
    · rw [heq] at hm
      cases hm
    · rw [heq] at hm
      exact h.proper e he m hm
  exact markersFor_invariant (P := fun ms => ∀ m ∈ ms, m.Proper) (hfound _)
    fun list hlist part => Marker.proper_insertAll hlist (hfound _)

/-- What is said of a group for an action is said for it, or for a part of it. -/
theorem says_markersFor (h : (dfa.state i).marks.Sound) : Says (dfa.markersFor i a) group role ↔
    (dfa.state i).marks.Has (some a) group role ∨
      ∃ part ∈ dfa.catalog.parts a, (dfa.state i).marks.Has (some part) group role := by
  have hfold : ∀ (parts : List ActionId) (list : List Marker), Says (parts.foldl (fun list part =>
      Marker.insertAll list (((dfa.state i).marks.markers? (some part)).getD [])) list)
        group role ↔ Says list group role ∨
          ∃ part ∈ parts, (dfa.state i).marks.Has (some part) group role := by
    intro parts list
    induction parts generalizing list with
    | nil => simp
    | cons part parts ih =>
      rw [List.foldl_cons, ih, Marker.says_insertAll, Marks.says_markers? h]
      simp only [List.mem_cons, exists_eq_or_imp]
      rw [or_assoc, or_left_comm]
  rw [← Marks.says_markers? h]
  exact hfold _ _

end Dfa

/-! ## The markers of a compiled state -/

namespace Nfa

open Marker (Says)

variable {nfa : Nfa} {dfa : Dfa} {a : ActionId} {catalog : Catalog} {failPolicy : FailPolicy}
  {eofAction : Option ActionId} {u w : List Char} {i : Nat}

/-- If any text has an action, there is a compiled state for each set. -/
theorem states_of_compile (h : nfa.compile catalog failPolicy eofAction = .ok dfa)
    (ha : dfa.actionFrom 0 w = some a) : dfa.states = nfa.subsetStates catalog := by
  rcases states_compile h with hstates | ⟨hstates, -⟩
  · exact hstates
  · rw [actionFrom_singleton hstates] at ha
    cases ha

/-- A state has the markers of all the states that the text leads to. -/
theorem marks_of_trail (h : dfa.states = nfa.subsetStates catalog) (t : Trail dfa.Edge 0 u i) :
    (dfa.state i).marks = nfa.marksOfSet (nfa.keptAt none u) := by
  have hnode := (node_of_trail ((trail_congr (edge_subsetStates h)).1 t)).1
  rcases state_subsetStates h i with ⟨set, row, hset, -, heq⟩ | ⟨hi, -⟩
  · rw [heq, ← Option.some.inj (hset.symm.trans hnode)]
    rfl
  · rw [Array.getElem?_eq_none hi] at hnode
    cases hnode

/-- States that are left out of the sets have no markers. -/
theorem isKept_of_has {owner : Option ActionId} {group p : Nat} {role : Role}
    (h : (nfa.state p).marks.Has owner group role) : nfa.isKept none p = true := by
  obtain ⟨e, he, -⟩ := h
  have hne : (nfa.state p).marks.entries.isEmpty = false := List.isEmpty_eq_false_iff.2
    (List.ne_nil_of_mem he)
  simp [isKept, State.isImportant, Marks.isEmpty, hne]

theorem mem_keptAt_of_has {owner : Option ActionId} {group p : Nat} {role : Role}
    (hp : nfa.Reaches u p) (h : (nfa.state p).marks.Has owner group role) :
    p ∈ nfa.keptAt none u := by
  have hlt : p < nfa.states.size := by
    by_contra hge
    rw [state_of_size_le (Nat.le_of_not_lt hge)] at h
    exact Marks.not_has_empty h
  exact mem_keptAt.2 ⟨⟨hlt, hp⟩, isKept_of_has h⟩

/-- So the roles that are shown can be found among the states that are kept. -/
theorem mem_showing_iff {group : Nat} {role : Role} : w ∈ nfa.showing group role ↔
    ∃ p ∈ nfa.walk none w, (nfa.state p).marks.Has none group role := by
  rw [walk_eq_keptAt]
  constructor
  · rintro ⟨p, hp, hhas⟩
    exact ⟨p, mem_keptAt_of_has hp hhas, hhas⟩
  · rintro ⟨p, hp, hhas⟩
    exact ⟨p, (mem_keptAt.1 hp).1.2, hhas⟩

instance (nfa : Nfa) (group : Nat) (role : Role) (w : List Char) :
    Decidable (w ∈ nfa.showing group role) :=
  decidable_of_iff _ mem_showing_iff.symm

section Compiled

variable (h : dfa.states = nfa.subsetStates catalog) (t : Trail dfa.Edge 0 u i)

include h t

/-- Its bound markers are those of the states that the text leads to. -/
theorem has_marks_of_trail {group : Nat} {role : Role} :
    (dfa.state i).marks.Has (some a) group role ↔
      ∃ p, nfa.Reaches u p ∧ (nfa.state p).marks.Has (some a) group role := by
  rw [marks_of_trail h t, has_marksOfSet]
  constructor
  · rintro ⟨p, hp, hhas⟩
    exact ⟨p, (mem_keptAt.1 hp).1.2, hhas⟩
  · rintro ⟨p, hp, hhas⟩
    exact ⟨p, mem_keptAt_of_has hp hhas, hhas⟩

theorem inOrder_marks_of_trail : (dfa.state i).marks.InOrder := by
  rw [marks_of_trail h t]
  exact inOrder_marksOfSet _ _

theorem sound_marks_of_trail (hsound : ∀ p, nfa.Reaches u p → (nfa.state p).marks.Sound) :
    (dfa.state i).marks.Sound := by
  rw [marks_of_trail h t]
  exact sound_marksOfSet fun p hp => hsound p (mem_keptAt.1 hp).1.2

end Compiled

section AddAction

variable (hn : nfa.WellFormed) (hc : nfa.Clean)

include hn hc

theorem has_marks_addAction {b : ActionId} {group p : Nat} {role : Role}
    (t : Trail nfa.Edge nfa.start u p) :
    ((nfa.addAction a).state p).marks.Has (some b) group role ↔
      a = b ∧ (nfa.state p).badge.Shows group role := by
  have hclean := hc.badge t
  have hsound : (nfa.state p).marks.Sound := hclean.sound
  rw [marks_addAction hn a ⟨u, t⟩, Marks.has_bind hsound]
  exact or_iff_left (hclean.unbound b group role)

omit hn hc in
theorem reaches_addAction {p : Nat} :
    (nfa.addAction a).Reaches u p ↔ Trail nfa.Edge nfa.start u p := by
  have hsame := sameGraph_addAction nfa a
  rw [Reaches, hsame.trail_iff, hsame.start_eq]
  exact trail_congr (edge_arm a)

/-- A text leads to roles of the groups of the action where the automaton shows them, and to those
of no other action. -/
theorem exists_has_addAction {b : ActionId} {group : Nat} {role : Role} :
    (∃ p, (nfa.addAction a).Reaches u p ∧
      ((nfa.addAction a).state p).marks.Has (some b) group role) ↔
        a = b ∧ u ∈ nfa.showing group role := by
  constructor
  · rintro ⟨p, hp, hhas⟩
    have tp := reaches_addAction.1 hp
    obtain ⟨hb, hshows⟩ := (has_marks_addAction hn hc tp).1 hhas
    exact ⟨hb, p, tp, hshows⟩
  · rintro ⟨rfl, p, tp, hshows⟩
    exact ⟨p, reaches_addAction.2 tp, (has_marks_addAction hn hc tp).2 ⟨Eq.refl a, hshows⟩⟩

/-- The state that a text leads to says of the groups of the action what the automaton shows. -/
theorem markersFor_of_trail (h : dfa.states = (nfa.addAction a).subsetStates catalog)
    (t : Trail dfa.Edge 0 u i) :
    Marker.Ordered (dfa.markersFor i a) ∧ (∀ m ∈ dfa.markersFor i a, m.Proper) ∧
      ∀ group role, Says (dfa.markersFor i a) group role ↔ u ∈ nfa.showing group role := by
  have hsound : (dfa.state i).marks.Sound := by
    refine sound_marks_of_trail h t fun p hp => ?_
    have tp := reaches_addAction.1 hp
    rw [marks_addAction hn a ⟨u, tp⟩]
    exact (hc.badge tp).sound.bind a
  have hhas : ∀ {b group role}, (dfa.state i).marks.Has (some b) group role ↔
      a = b ∧ u ∈ nfa.showing group role :=
    (has_marks_of_trail h t).trans (exists_has_addAction hn hc)
  refine ⟨Dfa.ordered_markersFor (inOrder_marks_of_trail h t), Dfa.proper_markersFor hsound,
    fun group role => ?_⟩
  rw [Dfa.says_markersFor hsound]
  constructor
  · intro hsaid
    -- a part of the action has no markers, unless it is the action itself
    rcases hsaid with hsaid | ⟨part, -, hsaid⟩
    · exact (hhas.1 hsaid).2
    · exact (hhas.1 hsaid).2
  · intro hu
    exact .inl (hhas.2 ⟨rfl, hu⟩)

end AddAction

end Nfa

/-! ## The way of a match -/

/-- The states passed through while characters were read, both the latest one first. -/
inductive Dfa.Way (dfa : Dfa) : List Nat → List Char → Prop where
  | start : Way dfa [0] []
  | step {i j : Nat} {is : List Nat} {c : Char} {cs : List Char} :
      Way dfa (i :: is) cs → (dfa.state i).table.get c = some j → Way dfa (j :: i :: is) (c :: cs)

/-- A scan has come along a way, and the best match ends at a state on it. -/
structure Scan.Along (dfa : Dfa) (s : Scan) (cs : List Char) : Prop where
  way : dfa.Way s.states cs
  best : ∀ e ∈ s.best, ∃ i, s.states.reverse[e.length]? = some i ∧
    (dfa.state i).action = some e.action

section Way

variable {dfa : Dfa} {i k : Nat} {is : List Nat} {c : Char} {cs : List Char} {a : ActionId}
  {s : Scan} {limit : Option Nat} {src : Source} {out : String}

theorem Dfa.Way.length_eq (h : dfa.Way is cs) : is.length = cs.length + 1 := by
  induction h with
  | start => rfl
  | step _ _ ih => exact congrArg (· + 1) ih

theorem Dfa.Way.trail_head (h : dfa.Way (i :: is) cs) : Trail dfa.Edge 0 cs.reverse i := by
  generalize his : i :: is = states at h
  induction h generalizing i is with
  | start =>
    cases his
    exact .nil 0
  | step _ hget ih =>
    cases his
    rw [List.reverse_cons]
    exact (ih rfl).trans (trail_single hget)

/-- The state after so many characters is one that they lead to. -/
theorem Dfa.Way.trail (h : dfa.Way is cs) (hk : is.reverse[k]? = some i) :
    Trail dfa.Edge 0 (cs.reverse.take k) i := by
  induction h with
  | start =>
    obtain ⟨hlt, rfl⟩ := List.getElem?_eq_some_iff.1 hk
    obtain rfl : k = 0 := Nat.lt_one_iff.1 hlt
    exact .nil 0
  | @step j next states c cs hway hget ih =>
    have hlength := hway.length_eq
    rw [List.reverse_cons, List.getElem?_append] at hk
    split at hk
    · next hlt => -- a state from before, and characters from before
      rw [List.length_reverse] at hlt
      rw [List.reverse_cons, List.take_append_of_le_length (by rw [List.length_reverse]; omega)]
      exact ih hk
    · next hge =>
      obtain ⟨hzero, hnext⟩ := List.getElem?_eq_some_iff.1 hk
      rw [List.length_reverse] at hge
      rw [List.getElem_singleton] at hnext
      subst hnext
      rw [List.take_of_length_le (by rw [List.length_reverse, List.length_cons]; omega)]
      exact (Dfa.Way.step hway hget).trail_head

theorem Scan.Along.advance {next : Nat} (h : s.Along dfa s.read)
    (hlength : s.length = s.read.length) (hhead : s.states.head? = some i)
    (hget : (dfa.state i).table.get c = some next) :
    (s.advance dfa c next).Along dfa (c :: s.read) := by
  obtain ⟨is, his⟩ : ∃ is, s.states = i :: is := by
    cases hstates : s.states with
    | nil =>
      rw [hstates] at hhead
      cases hhead
    | cons j is =>
      rw [hstates] at hhead
      obtain rfl : j = i := Option.some.inj hhead
      exact ⟨is, rfl⟩
  have hway := h.way
  have hstates := hway.length_eq
  have hnew : (next :: s.states).reverse[s.length + 1]? = some next := by
    rw [List.reverse_cons, List.getElem?_append_right (by rw [List.length_reverse]; omega),
      List.length_reverse, hstates, hlength]
    simp
  rw [his] at hway
  refine ⟨?_, fun e he => ?_⟩
  · show dfa.Way (next :: s.states) (c :: s.read)
    rw [his]
    exact .step hway hget
  · show ∃ j, (next :: s.states).reverse[e.length]? = some j ∧ _
    cases haction : (dfa.state next).action with
    | some b => -- the best match is now the whole of what was read
      have hbest : (s.advance dfa c next).best = some ⟨b, s.length + 1⟩ := by
        simp [Scan.advance, haction]
      rw [hbest] at he
      obtain rfl := Option.some.inj he
      exact ⟨next, hnew, haction⟩
    | none => -- it is the one it was, further back on a longer way
      have hbest : (s.advance dfa c next).best = s.best := by
        simp [Scan.advance, haction]
      rw [hbest] at he
      obtain ⟨j, hj, hb⟩ := h.best e he
      refine ⟨j, ?_, hb⟩
      rw [List.reverse_cons, List.getElem?_append_left (List.getElem?_eq_some_iff.1 hj).1]
      exact hj

/-- A scan goes along a way; at its end it may have read one more character, which led nowhere. -/
theorem Dfa.along_scan (limit : Option Nat) (src : Source) (h : s.Along dfa s.read)
    (hlength : s.length = s.read.length) (hhead : s.states.head? = some i) :
    ∃ cs, (dfa.scan i s limit src).2.1.Along dfa cs ∧
      ((dfa.scan i s limit src).2.1.read = cs ∨
        ∃ c, (dfa.scan i s limit src).2.1.read = c :: cs) := by
  fun_induction dfa.scan i s limit src with
  | case1 => exact ⟨_, h, .inl rfl⟩
  | case2 => exact ⟨_, h, .inl rfl⟩
  | case3 => exact ⟨_, h, .inl rfl⟩
  | case4 i s limit src _ c => exact ⟨s.read, ⟨h.way, h.best⟩, .inr ⟨c, rfl⟩⟩
  | case5 i s limit src _ c src' _ next hget _ ih =>
    exact ih (h.advance hlength hhead hget) (congrArg (· + 1) hlength) rfl

theorem Dfa.along_scanStart (dfa : Dfa) : dfa.scanStart.Along dfa dfa.scanStart.read := by
  refine ⟨.start, fun e he => ?_⟩
  obtain ⟨b, hb, rfl⟩ := Option.map_eq_some_iff.1 he
  exact ⟨0, rfl, hb⟩

/-- The states up to the best match are those that its prefixes lead to, and the last one has its
action. -/
theorem Scan.Along.states_of_best (h : s.Along dfa cs)
    (hread : s.read = cs ∨ ∃ c, s.read = c :: cs) {e : MatchEnd} (he : s.best = some e) :
    (s.read.reverse.take e.length).length = e.length ∧ e.length < s.states.length ∧
      (∀ k ≤ e.length, ∀ i, s.states.reverse[k]? = some i →
        Trail dfa.Edge 0 ((s.read.reverse.take e.length).take k) i) ∧
      dfa.actionFrom 0 (s.read.reverse.take e.length) = some e.action := by
  obtain ⟨i, hi, haction⟩ := h.best e he
  have hlength := h.way.length_eq
  have hlt : e.length < s.states.length := by
    rw [← List.length_reverse]
    exact (List.getElem?_eq_some_iff.1 hi).1
  -- a character that led nowhere is not part of the match
  have htake : s.read.reverse.take e.length = cs.reverse.take e.length := by
    rcases hread with heq | ⟨c, heq⟩
    · rw [heq]
    · rw [heq, List.reverse_cons,
        List.take_append_of_le_length (by rw [List.length_reverse]; omega)]
  rw [htake]
  refine ⟨by rw [List.length_take, List.length_reverse]; omega, hlt, fun k hk i hi => ?_, ?_⟩
  · rw [List.take_take, Nat.min_eq_left hk]
    exact h.way.trail hi
  · exact Dfa.actionFrom_eq_some.2 ⟨i, h.way.trail hi, haction⟩

/-- A match has passed through states that its prefixes lead to, and the last one has its action. -/
theorem Dfa.exists_states_of_match
    (h : (dfa.matchLimited limit src out).result = .ok (.matched a)) :
    ∃ states : List Nat,
      (dfa.matchLimited limit src out).spans = Span.ofTrail [] (dfa.wayOf a out.utf8ByteSize
        (dfa.matchLimited limit src out).added states) ∧
      (dfa.matchLimited limit src out).added.length < states.length ∧
      (∀ k ≤ (dfa.matchLimited limit src out).added.length, ∀ i, states[k]? = some i →
        Trail dfa.Edge 0 ((dfa.matchLimited limit src out).added.take k) i) ∧
      dfa.actionFrom 0 (dfa.matchLimited limit src out).added = some a := by
  obtain ⟨cs, halong, hread⟩ :=
    along_scan limit src dfa.along_scanStart rfl rfl
  unfold matchLimited at h ⊢
  generalize dfa.scan 0 dfa.scanStart limit src = outcome at h halong hread ⊢
  split at h
  · cases h
  · cases h
  · next s src' _ _ =>
    simp only at h
    split at h
    · cases h
    · next best hbest =>
      cases h
      obtain ⟨hlength, hlt, htrail, haction⟩ := halong.states_of_best hread hbest
      refine ⟨s.states.reverse, Dfa.spansOf_eq, ?_, fun k hk i hi => htrail k ?_ i hi, haction⟩
      · exact hlength.trans_lt (hlt.trans_eq List.length_reverse.symm)
      · exact hk.trans_eq hlength

end Way

/-! ## What is met on the way -/

namespace Dfa

variable {dfa : Dfa} {a : ActionId} {start k : Nat} {w : List Char} {states : List Nat}

theorem getElem?_offsets (start : Nat) (w : List Char) (k : Nat) : (offsets start w)[k]? =
    if k ≤ w.length then some (start + (String.ofList (w.take k)).utf8ByteSize) else none := by
  induction w generalizing start k with
  | nil =>
    cases k with
    | zero => rfl
    | succ k => rfl
  | cons c w ih =>
    cases k with
    | zero => rfl
    | succ k =>
      rw [offsets, List.getElem?_cons_succ, ih, List.take_succ_cons, Offset.utf8ByteSize_cons,
        List.length_cons, Nat.add_assoc]
      simp only [Nat.succ_le_succ_iff]

theorem length_wayOf (h : w.length < states.length) :
    (dfa.wayOf a start w states).length = w.length + 1 := by
  rw [wayOf, markersMet, List.length_map, List.length_zip, length_offsets]
  omega

theorem getElem?_wayOf {p : Nat × List Marker} (h : (dfa.wayOf a start w states)[k]? = some p) :
    k ≤ w.length ∧ p.1 = start + (String.ofList (w.take k)).utf8ByteSize ∧
      ∃ i, states[k]? = some i ∧ p.2 = dfa.markersFor i a := by
  rw [wayOf, markersMet, List.getElem?_map, Option.map_eq_some_iff] at h
  obtain ⟨⟨i, offset⟩, hzip, rfl⟩ := h
  obtain ⟨hi, hoffset⟩ := List.getElem?_zip_eq_some.1 hzip
  rw [getElem?_offsets] at hoffset
  split at hoffset
  · next hk => exact ⟨hk, (Option.some.inj hoffset).symm, i, hi, rfl⟩
  · cases hoffset

end Dfa

/-- The positions of a text at which roles are shown for the characters up to there. -/
def Presence.along (shows : Role → Language Char) (w : List Char) : Presence := fun role k =>
  k ≤ w.length ∧ w.take k ∈ shows role

namespace Nfa

open Marker (Says)

/-- The positions of a match that begins at a byte offset: before, between and behind its
characters. At each the roles are met that the automaton shows for the characters up to there. -/
structure Met (nfa : Nfa) (start : Nat) (w : List Char) (way : List (Nat × List Marker)) :
    Prop where
  length_eq : way.length = w.length + 1
  offset_eq : ∀ k p, way[k]? = some p → p.1 = start + (String.ofList (w.take k)).utf8ByteSize
  ordered : ∀ p ∈ way, Marker.Ordered p.2
  proper : ∀ p ∈ way, ∀ m ∈ p.2, m.Proper
  says_iff : ∀ k p, way[k]? = some p → ∀ group role,
    Says p.2 group role ↔ w.take k ∈ nfa.showing group role

variable {nfa : Nfa} {dfa : Dfa} {a b : ActionId} {catalog : Catalog} {failPolicy : FailPolicy}
  {eofAction : Option ActionId} {limit : Option Nat} {src : Source} {out : String} {start : Nat}
  {w : List Char} {states : List Nat}

section AddAction

variable (hn : nfa.WellFormed) (hc : nfa.Clean)

include hn hc

theorem met_wayOf (h : dfa.states = (nfa.addAction a).subsetStates catalog)
    (hlt : w.length < states.length)
    (htrail : ∀ k ≤ w.length, ∀ i, states[k]? = some i → Trail dfa.Edge 0 (w.take k) i) :
    nfa.Met start w (dfa.wayOf a start w states) := by
  have hmarkers : ∀ k p, (dfa.wayOf a start w states)[k]? = some p → Marker.Ordered p.2 ∧
      (∀ m ∈ p.2, m.Proper) ∧
        ∀ group role, Says p.2 group role ↔ w.take k ∈ nfa.showing group role := by
    intro k p hp
    obtain ⟨hk, -, i, hi, heq⟩ := Dfa.getElem?_wayOf hp
    rw [heq]
    exact markersFor_of_trail hn hc h (htrail k hk i hi)
  refine ⟨Dfa.length_wayOf hlt, fun k p hp => (Dfa.getElem?_wayOf hp).2.1, fun p hp => ?_,
    fun p hp => ?_, fun k p hp => (hmarkers k p hp).2.2⟩
  · obtain ⟨k, hk⟩ := List.mem_iff_getElem?.1 hp
    exact (hmarkers k p hk).1
  · obtain ⟨k, hk⟩ := List.mem_iff_getElem?.1 hp
    exact (hmarkers k p hk).2.1

/-- With an action on an automaton that had none, a match is one for this action, and its spans are
read off what is met on its way. -/
theorem exists_met_of_match (hsilent : nfa.Silent)
    (hdfa : (nfa.addAction a).compile catalog failPolicy eofAction = .ok dfa)
    (h : (dfa.matchLimited limit src out).result = .ok (.matched b)) :
    b = a ∧ (dfa.matchLimited limit src out).added ∈ nfa.language ∧
      ∃ way, nfa.Met out.utf8ByteSize (dfa.matchLimited limit src out).added way ∧
        (dfa.matchLimited limit src out).spans = Span.ofTrail [] way := by
  obtain ⟨states, hspans, hlt, htrail, haction⟩ := Dfa.exists_states_of_match h
  have hstates := states_of_compile hdfa haction
  rw [actionFrom_compile hdfa, resolution_addAction hsilent hn] at haction
  split at haction
  · next hw =>
    obtain rfl : a = b := Option.some.inj haction
    exact ⟨rfl, hw, _, met_wayOf hn hc hstates hlt htrail, hspans⟩
  · cases haction

end AddAction

/-! ## The track of a group -/

section Track

variable {way : List (Nat × List Marker)} {group : Nat} {role : Role}

/-- A group has a role at a position if the automaton shows it for the characters up to there. -/
theorem Met.has_eq (h : nfa.Met start w way) (group : Nat) :
    (Track.ofWay group way).Has = .along (nfa.showing group) w := by
  have hlength := h.length_eq
  funext role k
  rw [eq_iff_iff]
  constructor
  · intro hhas
    obtain ⟨position, m, hm, hrole⟩ := hhas
    rw [Track.ofWay, List.getElem?_map, Option.map_eq_some_iff] at hm
    obtain ⟨p, hp, heq⟩ := hm
    have hfind : Marker.find group p.2 = some m := congrArg Prod.snd heq
    have hlt : k < way.length := (List.getElem?_eq_some_iff.1 hp).1
    refine ⟨by omega, (h.says_iff k p hp group role).1 ?_⟩
    exact (Marker.says_iff_find (h.ordered p (List.mem_of_getElem? hp))).2 ⟨m, hfind, hrole⟩
  · intro hshows
    obtain ⟨hk, hshows⟩ := hshows
    obtain ⟨p, hp⟩ : ∃ p, way[k]? = some p := ⟨_, List.getElem?_eq_getElem (by omega)⟩
    have hsaid := (h.says_iff k p hp group role).2 hshows
    obtain ⟨m, hfind, hrole⟩ :=
      (Marker.says_iff_find (h.ordered p (List.mem_of_getElem? hp))).1 hsaid
    refine ⟨p.1, m, ?_, hrole⟩
    rw [Track.ofWay, List.getElem?_map, hp, Option.map_some, hfind]

/-- The offsets of a track are those of the characters of the match. -/
theorem Met.getElem?_fst (h : nfa.Met start w way) (group : Nat) (hk : k ≤ w.length) :
    (Track.ofWay group way)[k]?.map Prod.fst =
      some (start + (String.ofList (w.take k)).utf8ByteSize) := by
  have hlength := h.length_eq
  obtain ⟨p, hp⟩ : ∃ p, way[k]? = some p := ⟨_, List.getElem?_eq_getElem (by omega)⟩
  rw [Track.ofWay, List.getElem?_map, hp, ← h.offset_eq k p hp]
  rfl

theorem Met.proper_track (h : nfa.Met start w way) :
    ∀ p ∈ Track.ofWay group way, ∀ m ∈ p.2, m.Proper := by
  intro p hp m hm
  obtain ⟨q, hq, rfl⟩ := List.mem_map.1 hp
  exact h.proper q hq m (List.mem_of_find?_eq_some hm)

/-- The marker that a group has after a text, if it has one. -/
def markerAfter (nfa : Nfa) (group : Nat) (w : List Char) : Option Marker :=
  let m : Marker := ⟨group, w ∈ nfa.showing group .start, w ∈ nfa.showing group .inner,
    w ∈ nfa.showing group .stop⟩
  if m.start || m.inner then some m else none

/-- The track of a group along a text that begins at a byte offset. -/
def trackOf (nfa : Nfa) (group start : Nat) (w : List Char) : Track :=
  (Dfa.offsets start w).zip
    ((List.range (w.length + 1)).map fun k => nfa.markerAfter group (w.take k))

theorem Met.find_eq (h : nfa.Met start w way) {p : Nat × List Marker} (hp : way[k]? = some p) :
    Marker.find group p.2 = nfa.markerAfter group (w.take k) := by
  have hmem := List.mem_of_getElem? hp
  have hsaid := h.says_iff k p hp group
  rw [markerAfter]
  split
  · next hproper =>
    apply Marker.find_eq_some (h.ordered p hmem) (Bool.or_eq_true_iff.1 hproper)
    intro role
    rw [hsaid]
    cases role <;> exact decide_eq_true_iff.symm
  · next hnot =>
    rcases hfind : Marker.find group p.2 with _ | n
    · rfl
    · exfalso
      have hrole : ∀ role, n.has role = true → w.take k ∈ nfa.showing group role :=
        fun role hn => (hsaid role).1 ((Marker.says_iff_find (h.ordered p hmem)).2 ⟨n, hfind, hn⟩)
      apply hnot
      rcases h.proper p hmem n (List.mem_of_find?_eq_some hfind) with hstart | hinner
      · exact Bool.or_eq_true_iff.2 (.inl (decide_eq_true (hrole .start hstart)))
      · exact Bool.or_eq_true_iff.2 (.inr (decide_eq_true (hrole .inner hinner)))

/-- The track of a group on the way of a match. -/
theorem Met.ofWay_eq (h : nfa.Met start w way) (group : Nat) :
    Track.ofWay group way = nfa.trackOf group start w := by
  have hway := h.length_eq
  apply List.ext_getElem?
  intro k
  rw [Track.ofWay, trackOf, List.getElem?_map]
  by_cases hk : k ≤ w.length
  · have hp := List.getElem?_eq_getElem (show k < way.length by omega)
    have hoffset := Dfa.getElem?_offsets start w k
    rw [if_pos hk, ← h.offset_eq k _ hp] at hoffset
    rw [hp, Option.map_some, h.find_eq hp, eq_comm, List.getElem?_zip_eq_some, List.getElem?_map,
      List.getElem?_range (by omega)]
    exact ⟨hoffset, rfl⟩
  · rw [List.getElem?_eq_none (by omega), eq_comm, List.getElem?_eq_none]
    · rfl
    · rw [List.length_zip, Dfa.length_offsets]
      omega

end Track

end Nfa

end LongestMatch
