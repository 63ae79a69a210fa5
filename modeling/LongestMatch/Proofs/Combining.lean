import LongestMatch.Action.Stock
import LongestMatch.Proofs.Interchange
import LongestMatch.Proofs.Sites

/-!
# What is seen of the groups of combined actions

Where the actions of a set are combined one after another (`Catalog.Combines`), the last combined
action stands for all of them, if parts of parts count (`Catalog.Combines.standsFor`). But markers
are looked up for an action and its parts only, one level deep. So of two actions combined all
markers are seen, and of three or more those of the action that was met last, unless markers are
recorded for the combined actions themselves: `Nfa.combined_markers`.
-/

namespace LongestMatch

/-! ## Combining one action after another -/

namespace Catalog

/-- Each of the actions is put before the next one, and each time a combined action comes out whose
parts are the two. -/
inductive Combines (catalog : Catalog) : ActionId → List ActionId → ActionId → Prop where
  | done (a : ActionId) : Combines catalog a [] a
  | next {a b c action : ActionId} {others : List ActionId} :
      catalog.merge a b = .combined c → (catalog.parts c).Perm [a, b] →
        Combines catalog c others action → Combines catalog a (b :: others) action

/-- An action stands for itself, for its parts, for their parts, and so on. -/
def StandsFor (catalog : Catalog) : ActionId → ActionId → Prop :=
  Relation.ReflTransGen fun a part => part ∈ catalog.parts a

variable {catalog : Catalog} {a action last : ActionId} {others : List ActionId}

/-- What has been combined stands for all that has been met. -/
theorem Combines.standsFor (h : catalog.Combines a others action) :
    ∀ b ∈ a :: others, catalog.StandsFor action b := by
  induction h with
  | done a =>
    intro b hb
    rw [List.mem_singleton.1 hb]
    exact .refl
  | @next a b c action others _ hparts _ ih =>
    obtain ⟨hc, hothers⟩ := List.forall_mem_cons.1 ih
    have htail : ∀ part ∈ [a, b], catalog.StandsFor action part :=
      fun part hpart => hc.tail (hparts.mem_iff.2 hpart)
    exact List.forall_mem_cons.2 ⟨htail a (by simp),
      List.forall_mem_cons.2 ⟨htail b (by simp), hothers⟩⟩

theorem combines_nil_iff : catalog.Combines a [] action ↔ action = a := by
  constructor
  · rintro ⟨⟩
    rfl
  · rintro rfl
    exact .done _

/-- The parts of the result are what the last action was put behind, and the last action. -/
theorem combines_concat_iff : catalog.Combines a (others ++ [last]) action ↔
    ∃ before, catalog.Combines a others before ∧
      catalog.merge before last = .combined action ∧
      (catalog.parts action).Perm [before, last] := by
  constructor
  · intro h
    induction others generalizing a with
    | nil =>
      obtain _ | ⟨hverdict, hparts, hrest⟩ := h
      obtain rfl := combines_nil_iff.1 hrest
      exact ⟨a, .done a, hverdict, hparts⟩
    | cons b others ih =>
      obtain _ | ⟨hverdict, hparts, hrest⟩ := h
      obtain ⟨before, hbefore, hlast⟩ := ih hrest
      exact ⟨before, .next hverdict hparts hbefore, hlast⟩
  · rintro ⟨before, hbefore, hverdict, hparts⟩
    induction hbefore with
    | done a => exact .next hverdict hparts (.done action)
    | next hverdict' hparts' _ ih => exact .next hverdict' hparts' (ih hverdict hparts)

end Catalog

namespace Resolution

variable {catalog : Catalog} {a action : ActionId} {others : List ActionId}

theorem foldl_meet_of_combines (h : catalog.Combines a others action)
    (clashes : List (ActionId × ActionId)) :
    others.foldl (meet catalog) (a, clashes) = (action, clashes) := by
  induction h with
  | done a => rfl
  | @next a b c action others hverdict _ _ ih =>
    have hmeet : meet catalog (a, clashes) b = (c, clashes) := by rw [meet, hverdict]
    rw [List.foldl_cons, hmeet, ih]

theorem folded_of_combines (h : catalog.Combines a others action) :
    folded catalog (a :: others) = ⟨some action, []⟩ := by
  rw [folded, foldl_meet_of_combines h]

end Resolution

/-! ## Compiled states -/

namespace Nfa

open Marker (Says)

variable {nfa : Nfa} {dfa : Dfa} {catalog : Catalog} {failPolicy : FailPolicy}
  {eofAction : Option ActionId} {set : List Nat} {i : Nat} {a b first last action : ActionId}
  {others order : List ActionId} {group : Nat} {role : Role} {w : List Char}

/-- The distinct actions of a set of states in the order in which they are met. -/
def actionsInTurn (nfa : Nfa) (catalog : Catalog) (set : List Nat) : List ActionId :=
  Resolution.byPriority catalog (set.filterMap fun id => (nfa.state id).action).eraseDups

theorem ofSet_eq_folded :
    Resolution.ofSet catalog nfa set = Resolution.folded catalog (nfa.actionsInTurn catalog set) :=
  Resolution.ofActions_eq_folded catalog _

theorem sound_marks_compile (hn : nfa.Built)
    (h : nfa.compile catalog failPolicy eofAction = .ok dfa) (i : Nat) :
    (dfa.state i).marks.Sound := by
  rcases state_compile h i with ⟨set, row, -, heq⟩ | heq
  · rw [heq]
    exact sound_marksOfSet fun p _ => hn.sound p
  · rw [heq]
    exact Marks.sound_empty

/-- The state of a set has what the actions of the set come to. -/
theorem action_compile (h : nfa.compile catalog failPolicy eofAction = .ok dfa)
    (hset : (nfa.exploreSubsets none).nodes[i]? = some set)
    (hsome : (Resolution.ofSet catalog nfa set).action = some a) :
    (dfa.state i).action = some a := by
  rcases states_compile h with hstates | ⟨-, hnone⟩
  · rw [action_subsetStates hstates hset, hsome]
  · rw [hnone set (Array.mem_of_getElem? hset)] at hsome
    cases hsome

/-- What is reported for an action with two parts. -/
theorem says_markersFor_of_parts (hn : nfa.Built)
    (h : nfa.compile catalog failPolicy eofAction = .ok dfa)
    (hparts : (catalog.parts action).Perm [a, b]) :
    Says (dfa.markersFor i action) group role ↔
      ∃ c ∈ [action, a, b], (dfa.state i).marks.Has (some c) group role := by
  rw [Dfa.says_markersFor (sound_marks_compile hn h i), catalog_of_compile h]
  simp only [hparts.mem_iff, List.mem_cons, exists_eq_or_imp]

/-- A match for an action for which nothing is said reports nothing. -/
theorem spans_eq_nil_of_not_says (hn : nfa.Built)
    (h : nfa.compile catalog failPolicy eofAction = .ok dfa)
    (hnot : ∀ i group role, ¬Says (dfa.markersFor i a) group role) {limit : Option Nat}
    {src : Source} {out : String}
    (hresult : (dfa.matchLimited limit src out).result = .ok (.matched a)) :
    (dfa.matchLimited limit src out).spans = [] := by
  obtain ⟨states, hspans, -⟩ := Dfa.exists_states_of_match hresult
  rw [hspans]
  apply Span.ofTrail_of_forall_nil
  intro p hp
  obtain ⟨q, -, rfl⟩ := List.mem_map.1 hp
  apply List.eq_nil_iff_forall_not_mem.2
  intro m hm
  -- each marker gives a role
  rcases Dfa.proper_markersFor (sound_marks_compile hn h q.1) m hm with hstart | hinner
  · exact hnot q.1 m.group .start ⟨m, hm, rfl, hstart⟩
  · exact hnot q.1 m.group .inner ⟨m, hm, rfl, hinner⟩

/-! ## Actions and roles of patterns put together -/

/-- A role that a compiled state has is one that some text leads to. -/
theorem exists_sees_of_has (h : nfa.compile catalog failPolicy eofAction = .ok dfa)
    (hhas : (dfa.state i).marks.Has (some a) group role) :
    ∃ w, nfa.Sees (Badge.Marks a group role) nfa.start w := by
  rcases states_compile h with hstates | ⟨hstates, -⟩
  · rcases state_subsetStates hstates i with ⟨set, row, hset, -, -⟩ | ⟨-, heq⟩
    · obtain ⟨w, t⟩ := exists_text (Array.getElem?_eq_some_iff.1 hset).1
      have t : Trail dfa.Edge 0 w i := (trail_congr (edge_subsetStates hstates)).2 t
      exact ⟨w, (has_marks_of_trail hstates t).1 hhas⟩
    · rw [heq] at hhas
      exact absurd hhas Marks.not_has_empty
  · rw [Dfa.state, hstates] at hhas
    rcases i with _ | i
    · exact absurd hhas Marks.not_has_empty
    · exact absurd hhas Marks.not_has_empty

/-- Actions of different priorities are met in the order of these. -/
theorem actionsInTurn_keptAt (hmem : ∀ a, a ∈ order ↔ a ∈ nfa.actions w)
    (hdescending : order.Pairwise fun a b => catalog.priority b < catalog.priority a) :
    nfa.actionsInTurn catalog (nfa.keptAt none w) = order := by
  have hturn : Resolution.InTurn catalog _ (nfa.actionsInTurn catalog (nfa.keptAt none w)) :=
    Resolution.inTurn_byPriority catalog _
  apply hturn.eq_of_descending (nodup_eraseDups _) (fun a => ?_) hdescending
  rw [hmem, List.mem_eraseDups, List.mem_filterMap]
  constructor
  · rintro ⟨q, t, ha⟩
    exact ⟨q, mem_keptAt.2 ⟨⟨lt_size_of_action ha, t⟩, isKept_of_action ha⟩, ha⟩
  · rintro ⟨q, hq, ha⟩
    exact ⟨q, (mem_keptAt.1 hq).1.2, ha⟩

open Pattern

theorem clean_ofPattern {config : Config} {pattern : String}
    (h : ofPattern config pattern = .ok nfa) : nfa.Clean := by
  obtain ⟨t, ht⟩ := exists_tree_of_fault (exists_builder_of_ofPattern h).1
  exact (outlined_ofPattern h ht).clean

section Gathers

variable {ps : List (String × ActionId)} (h : Gathers ps nfa)

include h

/-- A text has the actions of the patterns whose languages it belongs to. -/
theorem Gathers.mem_actions_iff : a ∈ nfa.actions w ↔
    ∃ p ∈ ps, p.2 = a ∧ ∃ piece, ofPattern {} p.1 = .ok piece ∧ w ∈ piece.language := by
  refine (h.sees_iff _ (Badge.telling_acts a) w).trans
    (exists_congr fun p => and_congr_right fun _ => ?_)
  constructor
  · rintro ⟨_, hpiece, hacts⟩
    obtain ⟨piece, hpattern, rfl⟩ := withAction_eq_ok.1 hpiece
    have ha : a ∈ (piece.addAction p.2).actions w := hacts
    rw [(silent_ofPattern hpattern).actions_addAction (built_ofPattern hpattern).wellFormed] at ha
    exact ⟨ha.1.symm, piece, hpattern, ha.2⟩
  · rintro ⟨rfl, piece, hpattern, hw⟩
    refine ⟨_, withAction_eq_ok.2 ⟨piece, hpattern, rfl⟩, ?_⟩
    show p.2 ∈ (piece.addAction p.2).actions w
    rw [(silent_ofPattern hpattern).actions_addAction (built_ofPattern hpattern).wellFormed]
    exact ⟨rfl, hw⟩

/-- A text leads to the roles that the patterns show, each for the action of its pattern. -/
theorem Gathers.sees_marks_iff : nfa.Sees (Badge.Marks a group role) nfa.start w ↔
    ∃ p ∈ ps, p.2 = a ∧ ∃ piece, ofPattern {} p.1 = .ok piece ∧ w ∈ piece.showing group role := by
  refine (h.sees_iff _ (Badge.telling_marks a group role) w).trans
    (exists_congr fun p => and_congr_right fun _ => ?_)
  constructor
  · rintro ⟨_, hpiece, hmarks⟩
    obtain ⟨piece, hpattern, rfl⟩ := withAction_eq_ok.1 hpiece
    obtain ⟨ha, hshown⟩ := (exists_has_addAction (built_ofPattern hpattern).wellFormed
      (clean_ofPattern hpattern)).1 hmarks
    exact ⟨ha, piece, hpattern, hshown⟩
  · rintro ⟨ha, piece, hpattern, hshown⟩
    exact ⟨_, withAction_eq_ok.2 ⟨piece, hpattern, rfl⟩,
      (exists_has_addAction (built_ofPattern hpattern).wellFormed
        (clean_ofPattern hpattern)).2 ⟨ha, hshown⟩⟩

end Gathers

/-! ## One text with several actions -/

/-- An action that combines with any other one. -/
def merging (title : String) (priority : Int) (result : ActionId) (parts : List ActionId) :
    Action :=
  .custom
    { title, priority, verdict := fun _ => .combined result, parts,
      apply := fun out _ _ => .ok out }

/-- Three actions, one for the first two of them, and one for all three. -/
def pairing : Catalog :=
  .ofActions #[merging "a" 2 3 [], merging "b" 1 3 [], merging "c" 0 4 [],
    merging "ab" 0 4 [0, 1], merging "abc" 0 4 [3, 2]]

theorem combines_pair : pairing.Combines 0 [1] 3 :=
  .next rfl (.refl _) (.done 3)

theorem combines_three : pairing.Combines 0 [1, 2] 4 :=
  .next rfl (.refl _) (.next rfl (.refl _) (.done 4))

theorem derives_plain : Derives .alternation [.plain 'x'] (.plain 'x') :=
  .sequence (.factor (.atom (.plain (by decide))))

theorem outlined_plain (h : ofPattern {} "x" = .ok nfa) :
    Outlined nfa (Tree.plain 'x').outline :=
  outlined_ofPattern h ⟨_, .plain (by decide) .nil, derives_plain⟩

theorem outlined_grouped (h : ofPattern {} "(!x)" = .ok nfa) :
    Outlined nfa (Tree.group true (.plain 'x')).outline :=
  outlined_ofPattern h ⟨_, .plain (by decide) (.plain (by decide) (.plain (by decide)
    (.plain (by decide) .nil))), .sequence (.factor (.atom (.report derives_plain)))⟩

/-- A text with several actions, the first of which has a group. -/
theorem exists_grouped (as : List ActionId) :
    ∃ nfa, anyOf ("(!x)", 0) (as.map fun a => ("x", a)) = .ok nfa ∧ nfa.Built ∧
      (∀ w a, a ∈ nfa.actions w ↔ a ∈ 0 :: as ∧ w = ['x']) ∧
      nfa.Sees (Badge.Marks 0 0 .start) nfa.start [] ∧
      ∀ a group role w, nfa.Sees (Badge.Marks a group role) nfa.start w → a = 0 := by
  obtain ⟨g, hg⟩ := exists_of_isOk "(!x)" (by decide +kernel)
  obtain ⟨k, hk⟩ := exists_of_isOk "x" (by decide +kernel)
  have hgo := outlined_grouped hg
  have hko := outlined_plain hk
  have hglanguage : ∀ w, w ∈ g.language ↔ w = ['x'] :=
    fun w => iff_of_eq (congrArg (w ∈ ·) hgo.speaks.language_eq)
  have hklanguage : ∀ w, w ∈ k.language ↔ w = ['x'] :=
    fun w => iff_of_eq (congrArg (w ∈ ·) hko.speaks.language_eq)
  obtain ⟨nfa, hnfa, hgathers⟩ : ∃ nfa, anyOf ("(!x)", 0) (as.map fun a => ("x", a)) = .ok nfa ∧
      Gathers (("(!x)", 0) :: as.map fun a => ("x", a)) nfa :=
    exists_anyOf (List.forall_mem_cons.2 ⟨⟨g, hg⟩, List.forall_mem_map.2 fun _ _ => ⟨k, hk⟩⟩)
  refine ⟨nfa, hnfa, hgathers.built, fun w a => ?_, ?_, fun a group role w hw => ?_⟩
  · rw [hgathers.mem_actions_iff]
    constructor
    · rintro ⟨p, hp, rfl, piece, hpiece, hw⟩
      rcases List.mem_cons.1 hp with rfl | hp
      · obtain rfl := Except.ok.inj (hg.symm.trans hpiece)
        exact ⟨List.mem_cons_self, (hglanguage w).1 hw⟩
      · obtain ⟨b, hb, rfl⟩ := List.mem_map.1 hp
        obtain rfl := Except.ok.inj (hk.symm.trans hpiece)
        exact ⟨List.mem_cons_of_mem _ hb, (hklanguage w).1 hw⟩
    · rintro ⟨ha, rfl⟩
      rcases List.mem_cons.1 ha with rfl | ha
      · exact ⟨_, List.mem_cons_self, rfl, g, hg, (hglanguage _).2 rfl⟩
      · exact ⟨_, List.mem_cons_of_mem _ (List.mem_map_of_mem ha), rfl, k, hk,
          (hklanguage _).2 rfl⟩
  · exact hgathers.sees_marks_iff.2 ⟨_, List.mem_cons_self, rfl, g, hg,
      ((hgo.shown 0 _ rfl).mem_start []).2 ⟨rfl, _, rfl⟩⟩
  · obtain ⟨p, hp, rfl, piece, hpiece, hshown⟩ := hgathers.sees_marks_iff.1 hw
    rcases List.mem_cons.1 hp with rfl | hp
    · rfl
    · -- the other patterns have no groups
      obtain ⟨b, -, rfl⟩ := List.mem_map.1 hp
      obtain rfl := Except.ok.inj (hk.symm.trans hpiece)
      rw [showing_of_le hko.clean (hko.nextGroup_eq.trans_le (Nat.zero_le _))] at hshown
      cases hshown

/-- If its actions are combined one after another, the automaton compiles, and just the group of the
first one is recorded. -/
theorem exists_compile_grouped {as : List ActionId}
    (hdescending : (0 :: as).Pairwise fun a b => pairing.priority b < pairing.priority a)
    (hcombines : pairing.Combines 0 as action) :
    ∃ (nfa : Nfa) (dfa : Dfa) (i : Nat) (set : List Nat),
      anyOf ("(!x)", 0) (as.map fun a => ("x", a)) = .ok nfa ∧ nfa.Built ∧
      nfa.compile pairing .copy none = .ok dfa ∧
      (nfa.exploreSubsets none).nodes[i]? = some set ∧
      nfa.actionsInTurn pairing set = 0 :: as ∧ dfa.matchWhole? "x" = some action ∧
      (dfa.state 0).marks.Has (some 0) 0 .start ∧
      ∀ j a group role, (dfa.state j).marks.Has (some a) group role → a = 0 := by
  obtain ⟨nfa, hnfa, hbuilt, hactions, hstart, honly⟩ := exists_grouped as
  have horder : nfa.actionsInTurn pairing (nfa.keptAt none ['x']) = 0 :: as :=
    actionsInTurn_keptAt (fun a => ((hactions _ a).trans (and_iff_left rfl)).symm) hdescending
  have hresolution : nfa.resolution pairing ['x'] = ⟨some action, []⟩ := by
    rw [resolution, ← ofSet_keptAt none, ofSet_eq_folded, horder,
      Resolution.folded_of_combines hcombines]
  obtain ⟨dfa, hdfa⟩ : ∃ dfa, nfa.compile pairing .copy none = .ok dfa := by
    rw [exists_compile_iff]
    rintro ⟨w, hw⟩
    by_cases hx : w = ['x']
    · rw [hx, hresolution] at hw
      exact hw rfl
    · have hnone : nfa.actions w = ∅ :=
        Set.eq_empty_iff_forall_notMem.2 fun a ha => hx ((hactions w a).1 ha).2
      rw [resolution_eq_none hnone] at hw
      exact hw rfl
  have hwhole : dfa.matchWhole? "x" = some action := by
    rw [matchWhole?_compile hdfa]
    exact congrArg Resolution.action hresolution
  have hkept : nfa.keptAt none ['x'] ≠ [] := by
    intro hnil
    rw [resolution_of_keptAt_nil hnil] at hresolution
    cases hresolution
  obtain ⟨i, hi⟩ := exists_trail hkept
  have hstates := states_of_compile hdfa ((Dfa.matchWhole?_eq "x").symm.trans hwhole)
  refine ⟨nfa, dfa, i, _, hnfa, hbuilt, hdfa, (node_of_trail hi).1, horder, hwhole,
    (has_marks_of_trail hstates (.nil 0)).2 hstart, fun j a group role hhas => ?_⟩
  obtain ⟨w, hw⟩ := exists_sees_of_has hdfa hhas
  exact honly a group role w hw

/-! ## What is seen -/

/-- Two or more actions that meet in a set are combined one after another. The state of the set has
the last combined action, which stands for all of them. The roles of groups that any state reports
for it are those that are recorded for itself and for its two parts, so all those of two actions.
Of three or more actions, the others are parts of parts: if nothing is recorded for the combined
actions, just the roles of the last action are reported. -/
theorem combined_markers (hn : nfa.Built)
    (h : nfa.compile catalog failPolicy eofAction = .ok dfa)
    (hset : (nfa.exploreSubsets none).nodes[i]? = some set)
    (horder : nfa.actionsInTurn catalog set = first :: (others ++ [last]))
    (hcombines : catalog.Combines first (others ++ [last]) action) :
    (dfa.state i).action = some action ∧
      (∀ a ∈ nfa.actionsInTurn catalog set, catalog.StandsFor action a) ∧
      (others = [] → ∀ a ∈ nfa.actionsInTurn catalog set, ∀ j group role,
        (dfa.state j).marks.Has (some a) group role →
          Says (dfa.markersFor j action) group role) ∧
      ∃ before, catalog.Combines first others before ∧
        (∀ j group role, Says (dfa.markersFor j action) group role ↔
          ∃ a ∈ [action, before, last], (dfa.state j).marks.Has (some a) group role) ∧
        ((∀ j group role, ¬(dfa.state j).marks.Has (some action) group role ∧
            ¬(dfa.state j).marks.Has (some before) group role) →
          ∀ j group role, Says (dfa.markersFor j action) group role ↔
            (dfa.state j).marks.Has (some last) group role) := by
  obtain ⟨before, hbefore, -, hparts⟩ := Catalog.combines_concat_iff.1 hcombines
  have hsaid : ∀ j group role, Says (dfa.markersFor j action) group role ↔
      ∃ a ∈ [action, before, last], (dfa.state j).marks.Has (some a) group role :=
    fun j group role => says_markersFor_of_parts hn h hparts
  refine ⟨action_compile h hset ?_, ?_, fun hnil a ha j group role hhas => ?_, before, hbefore,
    hsaid, fun hnew j group role => ?_⟩
  · rw [ofSet_eq_folded, horder, Resolution.folded_of_combines hcombines]
  · rw [horder]
    exact hcombines.standsFor
  · subst hnil
    obtain rfl := Catalog.combines_nil_iff.1 hbefore
    rw [horder] at ha
    exact (hsaid j group role).2 ⟨a, List.mem_cons_of_mem _ ha, hhas⟩
  · obtain ⟨haction, hbefore⟩ := hnew j group role
    rw [hsaid]
    simp [haction, hbefore]

/-- Of two actions combined, the group of the first one is seen. -/
theorem combined_markers_pair :
    ∃ nfa dfa i, anyOf ("(!x)", 0) [("x", 1)] = .ok nfa ∧
      nfa.compile pairing .copy none = .ok dfa ∧ (dfa.state i).action = some 3 ∧
      Says (dfa.markersFor 0 3) 0 .start := by
  obtain ⟨nfa, dfa, i, set, hnfa, hbuilt, hdfa, hset, horder, -, hstart, -⟩ :=
    exists_compile_grouped (by decide) combines_pair
  have hcombines : pairing.Combines 0 ([] ++ [1]) 3 := combines_pair
  obtain ⟨haction, -, htwo, -⟩ := combined_markers hbuilt hdfa hset horder hcombines
  refine ⟨nfa, dfa, i, hnfa, hdfa, haction, htwo rfl 0 ?_ 0 0 .start hstart⟩
  rw [horder]
  exact List.mem_cons_self

/-- Of three actions combined, each time into one whose parts are the two that met, the group of the
first one is not seen: its marker is recorded, but the combined action does not have it, and no span
is reported. -/
theorem group_unseen_of_three :
    ∃ (nfa : Nfa) (dfa : Dfa) (i : Nat) (set : List Nat),
      anyOf ("(!x)", 0) [("x", 1), ("x", 2)] = .ok nfa ∧
      nfa.compile pairing .copy none = .ok dfa ∧
      (nfa.exploreSubsets none).nodes[i]? = some set ∧
      nfa.actionsInTurn pairing set = [0, 1, 2] ∧ pairing.Combines 0 [1, 2] 4 ∧
      (dfa.state i).action = some 4 ∧ (dfa.state 0).marks.Has (some 0) 0 .start ∧
      ¬Says (dfa.markersFor 0 4) 0 .start ∧
      let step := dfa.matchNext (Source.ofString "x") ""
      step.result = .ok (.matched 4) ∧ step.spans = [] := by
  obtain ⟨nfa, dfa, i, set, hnfa, hbuilt, hdfa, hset, horder, hwhole, hstart, honly⟩ :=
    exists_compile_grouped (by decide) combines_three
  have hunsaid : ∀ j group role, ¬Says (dfa.markersFor j 4) group role := by
    intro j group role hsaid
    have hparts : (pairing.parts 4).Perm [3, 2] := .refl _
    obtain ⟨a, ha, hhas⟩ := (says_markersFor_of_parts hbuilt hdfa hparts).1 hsaid
    obtain rfl := honly j a group role hhas
    exact absurd ha (by decide)
  have hresolved : (Resolution.ofSet pairing nfa set).action = some 4 := by
    rw [ofSet_eq_folded, horder, Resolution.folded_of_combines combines_three]
  have hlongest := (Dfa.matchWhole?_eq_some_iff "x").1 hwhole
  obtain ⟨hresult, -⟩ := Dfa.matchLimited_of_longestPrefix (Source.reliable_ofString "x")
    (.inr (by decide)) hlongest ""
  refine ⟨nfa, dfa, i, set, hnfa, hdfa, hset, horder, combines_three,
    action_compile hdfa hset hresolved, hstart, hunsaid 0 0 .start, hresult, ?_⟩
  exact spans_eq_nil_of_not_says hbuilt hdfa hunsaid hresult

end Nfa

end LongestMatch
