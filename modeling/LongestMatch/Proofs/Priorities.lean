import LongestMatch.Proofs.Exactness

/-!
# Priorities decide, whatever the order

Actions are resolved in the order in which they are met, which depends on how the states are
numbered. If all verdicts follow from the priorities the order does not matter. The first action in
turn has the greatest priority; it remains, and it clashes with those of the same priority
(`Resolution.folded_cons`). So nothing clashes exactly if one action prevails over all others
(`Nfa.clashes_resolution_eq_nil_iff`), and then it is the one that is left
(`Nfa.action_resolution`). For a whole automaton `Nfa.compile_by_priority` says when it compiles, and
what it matches then.
-/

namespace LongestMatch

variable {catalog : Catalog} {a b first : ActionId} {actions order others : List ActionId}

/-- All verdicts among some actions follow from the priorities. -/
def Catalog.MergesByPriorityAmong (catalog : Catalog) (actions : Set ActionId) : Prop :=
  ∀ a ∈ actions, ∀ b ∈ actions,
    catalog.merge a b = Verdict.byPriority (catalog.priority a) (catalog.priority b)

theorem Catalog.MergesByPriorityAmong.mono {actions more : Set ActionId}
    (h : catalog.MergesByPriorityAmong more) (hsub : actions ⊆ more) :
    catalog.MergesByPriorityAmong actions :=
  fun a ha b hb => h a (hsub ha) b (hsub hb)

/-- An action whose priority is greater than that of all others. -/
structure Prevails (catalog : Catalog) (actions : Set ActionId) (a : ActionId) : Prop where
  mem : a ∈ actions
  greater : ∀ b ∈ actions, b ≠ a → catalog.priority b < catalog.priority a

/-- An action that no other one surpasses. -/
structure Foremost (catalog : Catalog) (actions : Set ActionId) (a : ActionId) : Prop where
  mem : a ∈ actions
  le : ∀ b ∈ actions, catalog.priority b ≤ catalog.priority a

theorem Prevails.foremost_iff {actions : Set ActionId} (h : Prevails catalog actions a) :
    Foremost catalog actions b ↔ b = a := by
  constructor
  · intro hb
    by_contra hne
    exact absurd (hb.le a h.mem) (not_le_of_gt (h.greater b hb.mem hne))
  · rintro rfl
    refine ⟨h.mem, fun c hc => ?_⟩
    rcases eq_or_ne c b with rfl | hne
    · exact le_refl _
    · exact (h.greater c hc hne).le

/-- The only action that none surpasses is greater than all others, since an equal one would not be
surpassed either. -/
theorem existsUnique_foremost_iff {actions : Set ActionId} :
    (∃! a, Foremost catalog actions a) ↔ ∃ a, Prevails catalog actions a := by
  constructor
  · rintro ⟨a, ha, hunique⟩
    refine ⟨a, ha.mem, fun b hb hne => lt_of_le_of_ne (ha.le b hb) fun heq => hne ?_⟩
    exact hunique b ⟨hb, fun c hc => (ha.le c hc).trans_eq heq.symm⟩
  · rintro ⟨a, ha⟩
    exact ⟨a, ha.foremost_iff.2 rfl, fun b hb => ha.foremost_iff.1 hb⟩

namespace Resolution

/-! ## In turn -/

/-- Behind an action of no smaller priority, an action only counts if it clashes. -/
theorem meet_of_le {clashes : List (ActionId × ActionId)}
    (hmerge : catalog.merge a b = Verdict.byPriority (catalog.priority a) (catalog.priority b))
    (hle : catalog.priority b ≤ catalog.priority a) : meet catalog (a, clashes) b =
      (a, clashes ++ if catalog.priority b = catalog.priority a then [(a, b)] else []) := by
  rw [meet, hmerge, Verdict.byPriority]
  rcases lt_or_eq_of_le hle with hlt | heq
  · simp [hlt, hlt.ne]
  · simp [heq]

theorem foldl_meet (hmerge : ∀ b ∈ others, catalog.merge first b =
      Verdict.byPriority (catalog.priority first) (catalog.priority b))
    (hle : ∀ b ∈ others, catalog.priority b ≤ catalog.priority first)
    (clashes : List (ActionId × ActionId)) :
    others.foldl (meet catalog) (first, clashes) = (first, clashes ++
      (others.filter fun b => catalog.priority b = catalog.priority first).map (first, ·)) := by
  induction others generalizing clashes with
  | nil => simp
  | cons b others ih =>
    obtain ⟨hb, hmerge⟩ := List.forall_mem_cons.1 hmerge
    obtain ⟨hbfirst, hle⟩ := List.forall_mem_cons.1 hle
    rw [List.foldl_cons, meet_of_le hb hbfirst, ih hmerge hle, List.filter_cons]
    split <;> simp_all

section Ranked

variable (hmerge : catalog.MergesByPriorityAmong {a | a ∈ order})
  (hdescending : order.Pairwise fun a b => catalog.priority b ≤ catalog.priority a)

include hmerge hdescending

/-- The first action remains, and clashes with those of its priority. -/
theorem folded_cons (horder : order = first :: others) : folded catalog order = ⟨some first,
    (others.filter fun b => catalog.priority b = catalog.priority first).map (first, ·)⟩ := by
  subst horder
  rw [folded, foldl_meet (fun b hb => hmerge _ List.mem_cons_self _ (List.mem_cons_of_mem _ hb))
    (List.pairwise_cons.1 hdescending).1]
  rfl

theorem clashes_folded_eq_nil_iff (hnodup : order.Nodup) : (folded catalog order).clashes = [] ↔
    order = [] ∨ ∃ a, Prevails catalog {a | a ∈ order} a := by
  cases horder : order with
  | nil => simp [folded]
  | cons first others =>
    rw [← horder, folded_cons hmerge hdescending horder, horder, List.map_eq_nil_iff,
      List.filter_eq_nil_iff]
    subst horder
    obtain ⟨hle, -⟩ := List.pairwise_cons.1 hdescending
    constructor
    · intro hno
      refine .inr ⟨first, List.mem_cons_self, fun b hb hne => ?_⟩
      have hb := (List.mem_cons.1 hb).resolve_left hne
      exact lt_of_le_of_ne (hle b hb) (by simpa using hno b hb)
    · rintro (heq | ⟨a, ha⟩) b hb
      · cases heq
      · have hbfirst : b ≠ first := by
          rintro rfl
          exact (List.nodup_cons.1 hnodup).1 hb
        -- the one that prevails has to be the first
        have hfirst : a = first := by
          by_contra hne
          have hlt := ha.greater first List.mem_cons_self (Ne.symm hne)
          have hmem := (List.mem_cons.1 ha.mem).resolve_left hne
          exact absurd (hle a hmem) (not_le_of_gt hlt)
        subst hfirst
        simpa using (ha.greater b (List.mem_cons_of_mem _ hb) hbfirst).ne

/-- So the clashes are those of the first action with the other foremost ones. -/
theorem mem_clashes_folded (horder : order = first :: others) (hnodup : order.Nodup)
    {p : ActionId × ActionId} : p ∈ (folded catalog order).clashes ↔
      p.1 = first ∧ p.2 ≠ first ∧ Foremost catalog {a | a ∈ order} p.2 := by
  rw [folded_cons hmerge hdescending horder, List.mem_map]
  subst horder
  obtain ⟨hle, -⟩ := List.pairwise_cons.1 hdescending
  obtain ⟨hfresh, -⟩ := List.nodup_cons.1 hnodup
  have hmax : ∀ b ∈ first :: others, catalog.priority b ≤ catalog.priority first :=
    List.forall_mem_cons.2 ⟨le_refl _, hle⟩
  simp only [List.mem_filter, decide_eq_true_eq]
  constructor
  · rintro ⟨b, ⟨hb, heq⟩, rfl⟩
    refine ⟨rfl, fun h => hfresh (h ▸ hb), List.mem_cons_of_mem _ hb, fun c hc => ?_⟩
    exact (hmax c hc).trans_eq heq.symm
  · rintro ⟨hfirst, hne, hforemost⟩
    refine ⟨p.2, ⟨(List.mem_cons.1 hforemost.mem).resolve_left hne, ?_⟩, by rw [← hfirst]⟩
    exact le_antisymm (hmax _ hforemost.mem) (hforemost.le first List.mem_cons_self)

theorem action_folded (ha : Prevails catalog {a | a ∈ order} a) :
    (folded catalog order).action = some a := by
  cases horder : order with
  | nil =>
    have hmem := ha.mem
    rw [horder] at hmem
    cases hmem
  | cons first others =>
    rw [← horder, folded_cons hmerge hdescending horder]
    subst horder
    show some first = some a
    congr 1
    by_contra hne
    have hlt := ha.greater first List.mem_cons_self hne
    have hmem := (List.mem_cons.1 ha.mem).resolve_left (Ne.symm hne)
    exact absurd ((List.pairwise_cons.1 hdescending).1 a hmem) (not_le_of_gt hlt)

end Ranked

end Resolution

/-! ## The actions of a text -/

namespace Nfa

variable {nfa other : Nfa} {w : List Char}

/-- The actions of a text in turn, whatever the states are. -/
theorem exists_order (nfa : Nfa) (catalog : Catalog) (w : List Char) : ∃ order : List ActionId,
    order.Nodup ∧ (order.Pairwise fun a b => catalog.priority b ≤ catalog.priority a) ∧
      {a | a ∈ order} = nfa.actions w ∧
      nfa.resolution catalog w = Resolution.folded catalog order := by
  have hturn := Resolution.inTurn_byPriority catalog
    ((nfa.reached w).filterMap fun id => (nfa.state id).action).eraseDups
  refine ⟨_, hturn.perm.nodup_iff.2 (nodup_eraseDups _), hturn.descending, ?_,
    Resolution.ofActions_eq_folded catalog _⟩
  ext a
  exact hturn.perm.mem_iff.trans (List.mem_eraseDups.trans mem_filterMap_reached)

/-- Nothing clashes if there are no actions, or one prevails. -/
theorem clashes_resolution_eq_nil_iff (hmerge : catalog.MergesByPriorityAmong (nfa.actions w)) :
    (nfa.resolution catalog w).clashes = [] ↔
      nfa.actions w = ∅ ∨ ∃ a, Prevails catalog (nfa.actions w) a := by
  obtain ⟨order, hnodup, hdescending, hmem, heq⟩ := nfa.exists_order catalog w
  rw [← hmem] at hmerge
  rw [heq, Resolution.clashes_folded_eq_nil_iff hmerge hdescending hnodup, ← hmem,
    List.eq_nil_iff_forall_not_mem, Set.eq_empty_iff_forall_notMem]
  exact Iff.rfl

theorem action_resolution (hmerge : catalog.MergesByPriorityAmong (nfa.actions w))
    (ha : Prevails catalog (nfa.actions w) a) : (nfa.resolution catalog w).action = some a := by
  obtain ⟨order, -, hdescending, hmem, heq⟩ := nfa.exists_order catalog w
  rw [← hmem] at hmerge ha
  rw [heq, Resolution.action_folded hmerge hdescending ha]

/-- Only actions that none surpasses clash, and none with itself. -/
theorem foremost_of_mem_clashes (hmerge : catalog.MergesByPriorityAmong (nfa.actions w))
    {p : ActionId × ActionId} (hp : p ∈ (nfa.resolution catalog w).clashes) :
    Foremost catalog (nfa.actions w) p.1 ∧ Foremost catalog (nfa.actions w) p.2 ∧ p.1 ≠ p.2 := by
  obtain ⟨order, hnodup, hdescending, hmem, heq⟩ := nfa.exists_order catalog w
  rw [← hmem] at hmerge ⊢
  rw [heq] at hp
  cases horder : order with
  | nil =>
    rw [horder] at hp
    cases hp
  | cons first others =>
    rw [← horder]
    obtain ⟨hfirst, hne, hforemost⟩ :=
      (Resolution.mem_clashes_folded hmerge hdescending horder hnodup).1 hp
    rw [hfirst]
    refine ⟨⟨by rw [horder]; exact List.mem_cons_self, fun b hb => ?_⟩, hforemost, hne.symm⟩
    rw [horder] at hb hdescending
    rcases List.mem_cons.1 hb with rfl | hb
    · exact le_refl _
    · exact (List.pairwise_cons.1 hdescending).1 b hb

/-- The same actions come to the same, or clash in both cases. -/
theorem resolution_of_actions_eq (hmerge : catalog.MergesByPriorityAmong (nfa.actions w))
    (h : nfa.actions w = other.actions w) :
    ((nfa.resolution catalog w).clashes = [] ↔ (other.resolution catalog w).clashes = []) ∧
      ((nfa.resolution catalog w).clashes = [] →
        (nfa.resolution catalog w).action = (other.resolution catalog w).action) := by
  have hmerge' := hmerge
  rw [h] at hmerge'
  have hclashes := clashes_resolution_eq_nil_iff hmerge
  refine ⟨by rw [hclashes, clashes_resolution_eq_nil_iff hmerge', h], fun hnil => ?_⟩
  rcases hclashes.1 hnil with hnone | ⟨a, ha⟩
  · rw [resolution_eq_none hnone, resolution_eq_none (h.symm.trans hnone)]
  · rw [action_resolution hmerge ha, action_resolution hmerge' (h ▸ ha)]

/-! ## A whole automaton -/

variable {failPolicy : FailPolicy} {eofAction : Option ActionId} {dfa : Dfa}

theorem exists_compile_iff_prevails (hmerge : ∀ w, catalog.MergesByPriorityAmong (nfa.actions w)) :
    (∃ dfa, nfa.compile catalog failPolicy eofAction = .ok dfa) ↔
      ∀ w, (nfa.actions w).Nonempty → ∃ a, Prevails catalog (nfa.actions w) a := by
  rw [exists_compile_iff, not_exists]
  apply forall_congr'
  intro w
  rw [not_not, clashes_resolution_eq_nil_iff (hmerge w), Set.nonempty_iff_ne_empty, ne_eq,
    or_iff_not_imp_left]

/-- Compiling succeeds exactly if for each text with actions only one of them has the greatest
priority, and then it is the one that the text is matched by. How the priorities of the others are
ordered does not matter, nor do the states that carry the actions. -/
theorem compile_by_priority (catalog : Catalog) (failPolicy : FailPolicy)
    (eofAction : Option ActionId) (hmerge : ∀ w, catalog.MergesByPriorityAmong (nfa.actions w)) :
    ((∃ dfa, nfa.compile catalog failPolicy eofAction = .ok dfa) ↔
      ∀ w, (nfa.actions w).Nonempty → ∃! a, Foremost catalog (nfa.actions w) a) ∧
    (∀ dfa, nfa.compile catalog failPolicy eofAction = .ok dfa → ∀ text a,
      dfa.matchWhole? text = some a ↔ Foremost catalog (nfa.actions text.toList) a) ∧
    ((∀ w, (nfa.actions w).Nonempty → ∃ a, Prevails catalog (nfa.actions w) a) →
      ∃ dfa, nfa.compile catalog failPolicy eofAction = .ok dfa ∧
        ∀ text a, Prevails catalog (nfa.actions text.toList) a → dfa.matchWhole? text = some a) := by
  have hcompile : (∃ dfa, nfa.compile catalog failPolicy eofAction = .ok dfa) ↔ _ :=
    exists_compile_iff_prevails hmerge
  have hmatch : ∀ dfa, nfa.compile catalog failPolicy eofAction = .ok dfa → ∀ text a,
      dfa.matchWhole? text = some a ↔ Foremost catalog (nfa.actions text.toList) a := by
    intro dfa hdfa text a
    rw [matchWhole?_compile hdfa]
    rcases (nfa.actions text.toList).eq_empty_or_nonempty with hnone | hsome
    · rw [resolution_eq_none hnone, hnone]
      exact iff_of_false (by simp) fun ha => ha.mem
    · obtain ⟨b, hb⟩ := hcompile.1 ⟨dfa, hdfa⟩ _ hsome
      rw [action_resolution (hmerge _) hb, hb.foremost_iff, Option.some.injEq, eq_comm]
  refine ⟨?_, hmatch, fun hprevails => ?_⟩
  · simp only [existsUnique_foremost_iff]
    exact hcompile
  · obtain ⟨dfa, hdfa⟩ := hcompile.2 hprevails
    exact ⟨dfa, hdfa, fun text a ha => (hmatch dfa hdfa text a).2 (ha.foremost_iff.2 rfl)⟩

/-- Of three actions for any character two have the same priority; the third one is above them. -/
theorem compile_by_priority_tiedPair :
    let catalog : Catalog := ⟨fun a => if a = 2 then 5 else 0,
      fun a b => .byPriority (if a = 2 then 5 else 0) (if b = 2 then 5 else 0), fun a => [a],
      fun _ => ""⟩
    let armed (a : ActionId) : Nfa := (anyChar {}).addAction a
    ∃ pair whole dfa, (armed 0).or (armed 1) = .ok pair ∧ pair.or (armed 2) = .ok whole ∧
      whole.compile catalog .copy none = .ok dfa ∧ dfa.matchWhole? "x" = some 2 := by
  intro catalog armed
  have hwf : ∀ a, (armed a).WellFormed := wellFormed_addAction (wellFormed_anyChar {})
  have hactions : ∀ a w, (armed a).actions w = {b | b = a ∧ w ∈ (anyChar {}).language} :=
    (silent_anyChar {}).actions_addAction (wellFormed_anyChar {})
  obtain ⟨pair, hpair⟩ : ∃ pair, (armed 0).or (armed 1) = .ok pair :=
    exists_or_eq_ok (Nat.zero_le _)
  obtain ⟨whole, hwhole⟩ : ∃ whole, pair.or (armed 2) = .ok whole :=
    exists_or_eq_ok ((congrArg (· + 0) (nextGroup_or hpair)).trans_le (Nat.zero_le _))
  have hall : ∀ w b, b ∈ whole.actions w ↔ (b = 0 ∨ b = 1 ∨ b = 2) ∧ w ∈ (anyChar {}).language := by
    intro w b
    rw [mem_actions_or (wellFormed_or (hwf 0) (hwf 1) hpair) (hwf 2) hwhole,
      mem_actions_or (hwf 0) (hwf 1) hpair, hactions, hactions, hactions]
    constructor
    · rintro ((⟨hb, hw⟩ | ⟨hb, hw⟩) | ⟨hb, hw⟩)
      · exact ⟨.inl hb, hw⟩
      · exact ⟨.inr (.inl hb), hw⟩
      · exact ⟨.inr (.inr hb), hw⟩
    · rintro ⟨hb | hb | hb, hw⟩
      · exact .inl (.inl ⟨hb, hw⟩)
      · exact .inl (.inr ⟨hb, hw⟩)
      · exact .inr ⟨hb, hw⟩
  have hprevails : ∀ w, w ∈ (anyChar {}).language → Prevails catalog (whole.actions w) 2 := by
    intro w hw
    refine ⟨(hall w 2).2 ⟨by simp, hw⟩, fun b hb hne => ?_⟩
    show (if b = 2 then (5 : Int) else 0) < 5
    rw [if_neg hne]
    decide
  have hmerge : ∀ w, catalog.MergesByPriorityAmong (whole.actions w) := fun _ _ _ _ _ => rfl
  obtain ⟨-, -, hcompile⟩ := compile_by_priority catalog .copy none hmerge
  obtain ⟨dfa, hdfa, hmatch⟩ := hcompile fun w hsome => by
    obtain ⟨b, hb⟩ := hsome
    exact ⟨2, hprevails w ((hall w b).1 hb).2⟩
  exact ⟨pair, whole, dfa, hpair, hwhole, hdfa,
    hmatch "x" 2 (hprevails _ (mem_language_anyChar.2 ⟨'x', rfl⟩))⟩

end Nfa

end LongestMatch
