import LongestMatch.Proofs.Compiled
import LongestMatch.Proofs.Construction

/-!
# The subset construction is exact

A text leads an automaton to a set of states. Their actions, in the order of the states and each one
once, are put in turn by priority and met one after another. `Nfa.Turn` says which order that is,
and `turn_unique` that there is only one. `subset_construction_exact` states for every automaton
that can be built what the compiled automaton and the recognizer make of a text.
-/

namespace LongestMatch

/-! ## There is one order -/

theorem nodup_eraseDups {α : Type} [BEq α] [LawfulBEq α] (list : List α) :
    list.eraseDups.Nodup := by
  induction h : list.length using Nat.strongRecOn generalizing list with
  | ind n ih =>
    cases list with
    | nil => exact List.nodup_nil
    | cons a rest =>
      rw [List.eraseDups_cons, List.nodup_cons]
      constructor
      · simp [List.mem_eraseDups]
      · have hlen : (rest.filter fun b => !b == a).length < n := by
          have := List.length_filter_le (fun b => !b == a) rest
          simp only [List.length_cons] at h
          omega
        exact ih _ hlen _ rfl

/-- Two members of a list stand in it in one order or the other. -/
theorem sublist_or_sublist {l : List ActionId} {a b : ActionId} (ha : a ∈ l) (hb : b ∈ l)
    (hne : a ≠ b) : [a, b].Sublist l ∨ [b, a].Sublist l := by
  induction l with
  | nil => cases ha
  | cons c l ih =>
    by_cases hac : a = c
    · have hb' : b ∈ l := (List.mem_cons.1 hb).resolve_left fun h => hne (hac.trans h.symm)
      rw [hac]
      exact .inl ((List.singleton_sublist.2 hb').cons_cons c)
    · have ha' : a ∈ l := (List.mem_cons.1 ha).resolve_left hac
      by_cases hbc : b = c
      · rw [hbc]
        exact .inr ((List.singleton_sublist.2 ha').cons_cons c)
      · have hb' : b ∈ l := (List.mem_cons.1 hb).resolve_left hbc
        exact (ih ha' hb').imp (fun h => h.cons c) fun h => h.cons c

/-- But not in both, if none is repeated. -/
theorem not_sublist_of_nodup {l : List ActionId} {a b : ActionId} (hl : l.Nodup)
    (hab : [a, b].Sublist l) : ¬[b, a].Sublist l := by
  intro hba
  induction l with
  | nil => cases hab
  | cons c l ih =>
    obtain ⟨hc, hl⟩ := List.nodup_cons.1 hl
    cases hab with
    | cons _ hab =>
      cases hba with
      | cons _ hba => exact ih hl hab hba
      | cons_cons _ _ => exact hc (hab.subset (by simp))
    | cons_cons _ hab =>
      cases hba with
      | cons _ hba => exact hc (hba.subset (by simp))
      | cons_cons _ _ => exact hc (hab.subset (by simp))

namespace Resolution

variable {catalog : Catalog} {actions order order' : List ActionId}

/-- Where one action comes before another, its priority is greater, or it is the same and the action
comes first among those given. -/
theorem InTurn.before (h : InTurn catalog actions order) (hnodup : actions.Nodup) :
    order.Pairwise fun a b => catalog.priority b ≤ catalog.priority a ∧
      (catalog.priority a = catalog.priority b → [a, b].Sublist actions) := by
  have horder : order.Nodup := h.perm.nodup_iff.2 hnodup
  rw [List.pairwise_iff_forall_sublist]
  intro a b hab
  refine ⟨h.descending.forall_sublist hab, fun heq => ?_⟩
  have ha : a ∈ actions := h.perm.subset (hab.subset (by simp))
  have hb : b ∈ actions := h.perm.subset (hab.subset (by simp))
  have hne : a ≠ b := horder.forall_sublist hab
  -- the other way round, stability would put `b` first
  apply (sublist_or_sublist ha hb hne).resolve_right
  intro hba
  exact not_sublist_of_nodup horder hab (h.stable b a heq.le hba)

theorem InTurn.unique (h : InTurn catalog actions order) (h' : InTurn catalog actions order')
    (hnodup : actions.Nodup) : order = order' := by
  refine List.Perm.eq_of_pairwise ?_ (h.before hnodup) (h'.before hnodup)
    (h.perm.trans h'.perm.symm)
  intro a b _ _ hab hba
  have heq : catalog.priority a = catalog.priority b := le_antisymm hba.1 hab.1
  exact absurd (hba.2 heq.symm) (not_sublist_of_nodup hnodup (hab.2 heq))

/-- Actions of different priorities are in turn in the order of these. -/
theorem InTurn.eq_of_descending (h : InTurn catalog actions order) (hnodup : actions.Nodup)
    (hmem : ∀ a, a ∈ order' ↔ a ∈ actions)
    (hdescending : order'.Pairwise fun a b => catalog.priority b < catalog.priority a) :
    order = order' := by
  have hnodup' : order'.Nodup := hdescending.imp fun h heq => by
    rw [heq] at h
    exact lt_irrefl _ h
  have hperm : order.Perm order' :=
    h.perm.trans ((List.perm_ext_iff_of_nodup hnodup hnodup').2 fun a => (hmem a).symm)
  refine hperm.eq_of_pairwise (fun a b ha hb hba hab => ?_) h.descending (hdescending.imp le_of_lt)
  -- no two of them have the same priority
  by_contra hne
  rcases sublist_or_sublist (hperm.subset ha) hb hne with h | h
  · exact hab.not_gt (hdescending.forall_sublist h)
  · exact hba.not_gt (hdescending.forall_sublist h)

end Resolution

namespace Nfa

variable {nfa : Nfa} {catalog : Catalog} {w : List Char} {a : ActionId}
  {order order' : List ActionId}

/-- The distinct actions of the states that a text leads to, in the order in which they are met. -/
def Turn (nfa : Nfa) (catalog : Catalog) (w : List Char) (order : List ActionId) : Prop :=
  ∃ states : List Nat, states.Pairwise (· < ·) ∧ (∀ q, q ∈ states ↔ nfa.Reaches w q) ∧
    Resolution.InTurn catalog (states.filterMap fun q => (nfa.state q).action).eraseDups order

theorem turn_unique (h : nfa.Turn catalog w order) (h' : nfa.Turn catalog w order') :
    order = order' := by
  obtain ⟨states, hsorted, hmem, hturn⟩ := h
  obtain ⟨states', hsorted', hmem', hturn'⟩ := h'
  obtain rfl : states = states' := by
    refine List.Perm.eq_of_pairwise (fun a b _ _ hab hba => ?_) hsorted hsorted' ?_
    · exact absurd hab (Nat.lt_asymm hba)
    · apply (List.perm_ext_iff_of_nodup (hsorted.imp Nat.ne_of_lt) (hsorted'.imp Nat.ne_of_lt)).2
      intro q
      rw [hmem, hmem']
  exact hturn.unique hturn' (nodup_eraseDups _)

theorem Turn.mem_iff (h : nfa.Turn catalog w order) : a ∈ order ↔ a ∈ nfa.actions w := by
  obtain ⟨states, -, hmem, hturn⟩ := h
  rw [hturn.perm.mem_iff, List.mem_eraseDups, List.mem_filterMap]
  exact exists_congr fun q => and_congr_left' (hmem q)

theorem Turn.nodup (h : nfa.Turn catalog w order) : order.Nodup := by
  obtain ⟨states, -, -, hturn⟩ := h
  exact hturn.perm.nodup_iff.2 (nodup_eraseDups _)

theorem Turn.descending (h : nfa.Turn catalog w order) :
    order.Pairwise fun a b => catalog.priority b ≤ catalog.priority a := by
  obtain ⟨states, -, -, hturn⟩ := h
  exact hturn.descending

theorem Turn.eq_of_descending (h : nfa.Turn catalog w order)
    (hmem : ∀ a, a ∈ order' ↔ a ∈ nfa.actions w)
    (hdescending : order'.Pairwise fun a b => catalog.priority b < catalog.priority a) :
    order = order' := by
  have hsame : ∀ a, a ∈ order' ↔ a ∈ order := fun a => (hmem a).trans h.mem_iff.symm
  obtain ⟨states, -, -, hturn⟩ := h
  exact hturn.eq_of_descending (nodup_eraseDups _)
    (fun a => (hsame a).trans hturn.perm.mem_iff) hdescending

/-- The actions are resolved in turn. -/
theorem exists_turn (h : nfa.WellFormed) (catalog : Catalog) (w : List Char) :
    ∃ order, nfa.Turn catalog w order ∧
      nfa.resolution catalog w = Resolution.folded catalog order := by
  refine ⟨_, ⟨nfa.reached w, List.pairwise_lt_range.filter _, fun q => ?_,
    Resolution.inTurn_byPriority catalog _⟩, Resolution.ofActions_eq_folded catalog _⟩
  rw [mem_reached]
  exact and_iff_right_of_imp fun t => h.trail_lt t h.start_lt

theorem resolution_eq_folded (h : nfa.WellFormed) (hturn : nfa.Turn catalog w order) :
    nfa.resolution catalog w = Resolution.folded catalog order := by
  obtain ⟨order', hturn', heq⟩ := exists_turn h catalog w
  rw [heq, turn_unique hturn hturn']

/-- A resolution has clashes if the actions have some in turn. -/
theorem clashes_iff (h : nfa.WellFormed) : (nfa.resolution catalog w).clashes ≠ [] ↔
    ∃ order, nfa.Turn catalog w order ∧ (Resolution.folded catalog order).clashes ≠ [] := by
  constructor
  · intro hne
    obtain ⟨order, hturn, heq⟩ := exists_turn h catalog w
    exact ⟨order, hturn, heq ▸ hne⟩
  · intro h'
    obtain ⟨order, hturn, hne⟩ := h'
    exact resolution_eq_folded h hturn ▸ hne

theorem actions_eq_empty (h : ∀ q, nfa.Reaches w q → (nfa.state q).action = none) :
    nfa.actions w = ∅ := by
  rw [Set.eq_empty_iff_forall_notMem]
  intro a ha
  obtain ⟨q, hq, ha⟩ := ha
  rw [h q hq] at ha
  cases ha

/-! ## One action -/

section Silent

variable (hsilent : nfa.Silent) (hn : nfa.WellFormed) (action : ActionId)

include hsilent hn

open Classical in
theorem resolution_addAction (catalog : Catalog) (w : List Char) :
    (nfa.addAction action).resolution catalog w =
      if w ∈ nfa.language then ⟨some action, []⟩ else ⟨none, []⟩ := by
  have hactions := hsilent.actions_addAction hn action w
  split
  · next hw =>
    apply resolution_eq_some
    rw [hactions]
    simp [hw]
  · next hw =>
    apply resolution_eq_none
    rw [hactions]
    simp [hw]

/-- An automaton with a single action compiles, whatever is known about actions. -/
theorem exists_compile_addAction (catalog : Catalog) (failPolicy : FailPolicy)
    (eofAction : Option ActionId) :
    ∃ dfa, (nfa.addAction action).compile catalog failPolicy eofAction = .ok dfa := by
  cases hcompile : (nfa.addAction action).compile catalog failPolicy eofAction with
  | ok dfa => exact ⟨dfa, rfl⟩
  | error clashes =>
    obtain ⟨w, hw⟩ := compile_error_iff.1 ⟨clashes, hcompile⟩
    rw [resolution_addAction hsilent hn] at hw
    split at hw
    · exact absurd rfl hw
    · exact absurd rfl hw

end Silent

/-! ## Exactness -/

/-- The action of a text is what the actions that it leads to come to in turn. Compiling fails
exactly if they clash for some text, and the recognizer accepts the texts that lead to the last
state or to an action. -/
theorem subset_construction_exact (hn : nfa.Built) (catalog : Catalog) (failPolicy : FailPolicy)
    (eofAction : Option ActionId) :
    (∀ dfa, nfa.compile catalog failPolicy eofAction = .ok dfa → ∀ text : String,
      (∃ order, nfa.Turn catalog text.toList order ∧
        dfa.matchWhole? text = (Resolution.folded catalog order).action) ∧
      ((∀ q, nfa.Reaches text.toList q → (nfa.state q).action = none) →
        dfa.matchWhole? text = none) ∧
      ((∀ i, ¬Trail dfa.Edge 0 text.toList i) → dfa.matchWhole? text = none)) ∧
    ((∃ clashes, nfa.compile catalog failPolicy eofAction = .error clashes) ↔
      ∃ w order, nfa.Turn catalog w order ∧ (Resolution.folded catalog order).clashes ≠ []) ∧
    ∀ w, w ∈ (Recognizer.ofNfa nfa).accepted ↔
      ∃ q, nfa.Reaches w q ∧ (q = nfa.last ∨ (nfa.state q).action.isSome) := by
  have hwf := hn.wellFormed
  refine ⟨fun dfa hdfa text => ⟨?_, fun hnone => ?_, fun hstuck => ?_⟩, ?_, fun w => ?_⟩
  · obtain ⟨order, hturn, heq⟩ := exists_turn hwf catalog text.toList
    exact ⟨order, hturn, by rw [matchWhole?_compile hdfa, heq]⟩
  · rw [matchWhole?_compile hdfa, resolution_eq_none (actions_eq_empty hnone)]
  · exact Dfa.matchWhole?_eq_none hstuck
  · rw [compile_error_iff]
    exact exists_congr fun w => clashes_iff hwf
  · rw [Recognizer.accepted_ofNfa hwf.last_lt]
    exact mem_recognized

/-- A text that has an action. -/
def armedX (a : ActionId) : Nfa :=
  (literal {} "x").addAction a

theorem exists_twoArmed : ∃ pair, (armedX 0).or (armedX 1) = .ok pair ∧ pair.Built ∧
    pair.nextGroup = 0 ∧ ∀ w a, a ∈ pair.actions w ↔ (a = 0 ∨ a = 1) ∧ w = ['x'] := by
  have hbuilt : ∀ a, (armedX a).Built := fun a => .addAction a (.literal {} "x")
  have harmed : ∀ a w b, b ∈ (armedX a).actions w ↔ b = a ∧ w = ['x'] :=
    fun _ _ _ => mem_actions_literal_addAction
  obtain ⟨pair, hpair⟩ : ∃ pair, (armedX 0).or (armedX 1) = .ok pair :=
    exists_or_eq_ok (Nat.zero_le _)
  refine ⟨pair, hpair, .or (hbuilt 0) (hbuilt 1) hpair, nextGroup_or hpair, fun w a => ?_⟩
  rw [mem_actions_or (hbuilt 0).wellFormed (hbuilt 1).wellFormed hpair, harmed, harmed,
    ← or_and_right]

/-- Of two actions for the same text the later one has the greater priority. It is put before the
other one, and they are combined; the other way round they would clash. -/
theorem subset_construction_exact_twoArmed :
    let catalog : Catalog := ⟨fun a => if a = 1 then 5 else 0,
      fun a b => if a = 1 ∧ b = 0 then .combined 2 else .clash, fun a => [a], fun _ => ""⟩
    ∃ pair dfa, (armedX 0).or (armedX 1) = .ok pair ∧ pair.Turn catalog ['x'] [1, 0] ∧
      pair.compile catalog .copy none = .ok dfa ∧ dfa.matchWhole? "x" = some 2 ∧
      dfa.matchWhole? "xx" = none := by
  intro catalog
  obtain ⟨pair, hpair, hbuilt, -, hactions⟩ := exists_twoArmed
  obtain ⟨hmatch, hfails, -⟩ := subset_construction_exact hbuilt catalog .copy none
  have hboth : ∀ order, pair.Turn catalog ['x'] order → order = [1, 0] := by
    intro order h
    apply h.eq_of_descending (fun a => ?_) (List.pairwise_pair.2 (by decide))
    rw [hactions, and_iff_left rfl]
    simp [or_comm]
  have hnone : ∀ w order, w ≠ ['x'] → pair.Turn catalog w order → order = [] := by
    intro w order hw h
    exact List.eq_nil_iff_forall_not_mem.2 fun a ha => hw ((hactions w a).1 (h.mem_iff.1 ha)).2
  have hclashes : ∀ w order, pair.Turn catalog w order →
      (Resolution.folded catalog order).clashes = [] := by
    intro w order h
    by_cases hw : w = ['x']
    · subst hw
      obtain rfl := hboth order h
      rfl
    · obtain rfl := hnone w order hw h
      rfl
  cases hcompile : pair.compile catalog .copy none with
  | error clashes =>
    obtain ⟨w, order, h, hne⟩ := hfails.1 ⟨clashes, hcompile⟩
    exact absurd (hclashes w order h) hne
  | ok dfa =>
    obtain ⟨order, hturn, hx⟩ := (hmatch dfa hcompile "x").1
    obtain ⟨order', hturn', hxx⟩ := (hmatch dfa hcompile "xx").1
    obtain rfl := hboth order hturn
    obtain rfl := hnone _ order' (by decide) hturn'
    exact ⟨pair, dfa, hpair, hturn, hcompile, hx, hxx⟩

end Nfa

end LongestMatch
