import LongestMatch.Proofs.Reports

/-!
# Which ties a report shows

With verdicts by priority, the actions that clash on a text are those that share the greatest
priority. They do not clash each with each: the first of them in turn leads, and each of the others
is put before it alone (`Nfa.mem_clashes_iff`). So a report shows the pairs with a leader, and two
actions that are both led by a third one may not be shown together (`Nfa.third_tie_unreported`).
What can be learned from a report is said in `Nfa.ties_reported`.
-/

namespace LongestMatch

namespace Nfa

variable {nfa : Nfa} {catalog : Catalog} {failPolicy : FailPolicy} {eofAction : Option ActionId}
  {w : List Char} {a b lead : ActionId} {order others : List ActionId} {clashes : List Clash}

/-! ## The leader of a text -/

theorem Turn.setOf_mem (h : nfa.Turn catalog w order) : {a | a ∈ order} = nfa.actions w :=
  Set.ext fun _ => h.mem_iff

/-- The action that comes first in turn. -/
def Leads (nfa : Nfa) (catalog : Catalog) (w : List Char) (lead : ActionId) : Prop :=
  ∃ others, nfa.Turn catalog w (lead :: others)

theorem Leads.unique (h : nfa.Leads catalog w a) (h' : nfa.Leads catalog w b) : a = b := by
  obtain ⟨others, hturn⟩ := h
  obtain ⟨others', hturn'⟩ := h'
  exact (List.cons.inj (turn_unique hturn hturn')).1

/-- The first action in turn has the greatest priority. -/
theorem Leads.foremost (h : nfa.Leads catalog w lead) :
    Foremost catalog (nfa.actions w) lead := by
  obtain ⟨others, hturn⟩ := h
  rw [← hturn.setOf_mem]
  refine ⟨List.mem_cons_self, List.forall_mem_cons.2 ⟨le_refl _, ?_⟩⟩
  exact (List.pairwise_cons.1 hturn.descending).1

section Ranked

variable (hwf : nfa.WellFormed)

include hwf

theorem exists_leads (h : a ∈ nfa.actions w) : ∃ lead, nfa.Leads catalog w lead := by
  obtain ⟨order, hturn, -⟩ := exists_turn hwf catalog w
  rw [← hturn.setOf_mem] at h
  cases order with
  | nil => cases h
  | cons lead others => exact ⟨lead, others, hturn⟩

variable (hmerge : ∀ w, catalog.MergesByPriorityAmong (nfa.actions w))

include hmerge

/-- The leader clashes with each of the others that share its priority, and nothing else does. -/
theorem mem_clashes_iff (h : nfa.Leads catalog w lead) {p : ActionId × ActionId} :
    p ∈ (nfa.resolution catalog w).clashes ↔
      p.1 = lead ∧ p.2 ≠ lead ∧ Foremost catalog (nfa.actions w) p.2 := by
  obtain ⟨others, hturn⟩ := h
  have hranked := hmerge w
  rw [← hturn.setOf_mem] at hranked ⊢
  rw [resolution_eq_folded hwf hturn]
  exact Resolution.mem_clashes_folded hranked hturn.descending rfl hturn.nodup

/-- The pairs that clash on a text are the leader with each other foremost action. -/
theorem clashesOn_iff {pair : Sym2 ActionId} : nfa.ClashesOn catalog w pair ↔
    ∃ lead b, nfa.Leads catalog w lead ∧ b ≠ lead ∧ Foremost catalog (nfa.actions w) b ∧
      s(lead, b) = pair := by
  constructor
  · intro h
    obtain ⟨p, hp, rfl⟩ := List.mem_map.1 h
    obtain ⟨lead, hlead⟩ : ∃ lead, nfa.Leads catalog w lead :=
      exists_leads hwf (foremost_of_mem_clashes (hmerge w) hp).1.mem
    obtain ⟨hfirst, hne, hforemost⟩ := (mem_clashes_iff hwf hmerge hlead).1 hp
    exact ⟨lead, p.2, hlead, hne, hforemost, by rw [← hfirst]⟩
  · rintro ⟨lead, b, hlead, hne, hforemost, rfl⟩
    have hmem := (mem_clashes_iff (p := (lead, b)) hwf hmerge hlead).2 ⟨rfl, hne, hforemost⟩
    exact List.mem_map.2 ⟨_, hmem, rfl⟩

/-- A tie makes its members clash: with each other, or each of them with the leader. -/
theorem clashesOn_of_tie (hne : a ≠ b) (ha : Foremost catalog (nfa.actions w) a)
    (hb : Foremost catalog (nfa.actions w) b) : nfa.ClashesOn catalog w s(a, b) ∨
      ∃ lead, lead ≠ a ∧ lead ≠ b ∧ Foremost catalog (nfa.actions w) lead ∧
        nfa.ClashesOn catalog w s(lead, a) ∧ nfa.ClashesOn catalog w s(lead, b) := by
  simp only [clashesOn_iff hwf hmerge]
  obtain ⟨lead, hlead⟩ : ∃ lead, nfa.Leads catalog w lead := exists_leads hwf ha.mem
  rcases eq_or_ne a lead with rfl | hane
  · exact .inl ⟨a, b, hlead, hne.symm, hb, rfl⟩
  · rcases eq_or_ne b lead with rfl | hbne
    · exact .inl ⟨b, a, hlead, hne, ha, Sym2.eq_swap⟩
    · exact .inr ⟨lead, hane.symm, hbne.symm, hlead.foremost, ⟨lead, a, hlead, hane, ha, rfl⟩,
        lead, b, hlead, hbne, hb, rfl⟩

/-! ## What is reported -/

theorem mem_clashesKept {pair : Sym2 ActionId} :
    pair ∈ (nfa.clashesKept catalog).map Clash.Found.pair ↔
      ∃ w lead b, nfa.Leads catalog w lead ∧ b ≠ lead ∧ Foremost catalog (nfa.actions w) b ∧
        s(lead, b) = pair := by
  rw [map_pair_clashesKept, List.mem_eraseDups, mem_clashingPairs]
  exact exists_congr fun w => clashesOn_iff hwf hmerge

end Ranked

/-- With verdicts by priority, compiling fails exactly if on some text two actions share the
greatest priority. The pairs that the report shows are those of the leader of a text with another
action that shares its priority. So a tie of two is shown, and two members of a larger one are shown
with each other or both with a third one. -/
theorem ties_reported (hn : nfa.Built) (catalog : Catalog) (failPolicy : FailPolicy)
    (eofAction : Option ActionId) (hmerge : ∀ w, catalog.MergesByPriorityAmong (nfa.actions w)) :
    ((∃ clashes, nfa.compile catalog failPolicy eofAction = .error clashes) ↔
      ∃ w a b, a ≠ b ∧ Foremost catalog (nfa.actions w) a ∧ Foremost catalog (nfa.actions w) b) ∧
    ∀ clashes, nfa.compile catalog failPolicy eofAction = .error clashes →
      ∃ kept, List.Forall₂ (nfa.Reported catalog) kept clashes ∧
        (kept.map Clash.Found.pair).Nodup ∧
        (∀ pair, pair ∈ kept.map Clash.Found.pair ↔
          ∃ w lead b, nfa.Leads catalog w lead ∧ b ≠ lead ∧ Foremost catalog (nfa.actions w) b ∧
            s(lead, b) = pair) ∧
        (∀ w a b, a ≠ b → (∀ c, Foremost catalog (nfa.actions w) c ↔ c = a ∨ c = b) →
          s(a, b) ∈ kept.map Clash.Found.pair) ∧
        ∀ w a b, a ≠ b → Foremost catalog (nfa.actions w) a → Foremost catalog (nfa.actions w) b →
          s(a, b) ∈ kept.map Clash.Found.pair ∨
            ∃ lead, lead ≠ a ∧ lead ≠ b ∧ Foremost catalog (nfa.actions w) lead ∧
              s(lead, a) ∈ kept.map Clash.Found.pair ∧
              s(lead, b) ∈ kept.map Clash.Found.pair := by
  have hwf := hn.wellFormed
  have hshown : ∀ pair, pair ∈ (nfa.clashesKept catalog).map Clash.Found.pair ↔
      ∃ w, nfa.ClashesOn catalog w pair := by
    intro pair
    rw [map_pair_clashesKept, List.mem_eraseDups, mem_clashingPairs]
  have htie : ∀ w a b, a ≠ b → Foremost catalog (nfa.actions w) a →
      Foremost catalog (nfa.actions w) b → _ :=
    fun w a b => clashesOn_of_tie hwf hmerge
  constructor
  · rw [compile_error_iff]
    constructor
    · rintro ⟨w, hne⟩
      obtain ⟨p, hp⟩ := List.exists_mem_of_ne_nil _ hne
      obtain ⟨ha, hb, hab⟩ := foremost_of_mem_clashes (hmerge w) hp
      exact ⟨w, p.1, p.2, hab, ha, hb⟩
    · rintro ⟨w, a, b, hab, ha, hb⟩
      rcases htie w a b hab ha hb with h | ⟨lead, -, -, -, h, -⟩
      · obtain ⟨p, hp, -⟩ := List.mem_map.1 h
        exact ⟨w, List.ne_nil_of_mem hp⟩
      · obtain ⟨p, hp, -⟩ := List.mem_map.1 h
        exact ⟨w, List.ne_nil_of_mem hp⟩
  · intro clashes hclashes
    obtain ⟨-, rfl⟩ := compile_eq_error_iff.1 hclashes
    refine ⟨_, nfa.reported catalog, ?_, fun pair => mem_clashesKept hwf hmerge, ?_, ?_⟩
    · rw [map_pair_clashesKept]
      exact nodup_eraseDups _
    · intro w a b hab hall
      rw [hshown]
      rcases htie w a b hab ((hall a).2 (.inl rfl)) ((hall b).2 (.inr rfl)) with h | h
      · exact ⟨w, h⟩
      · -- a third action would be one of the two
        obtain ⟨lead, ha, hb, hlead, -⟩ := h
        exact absurd ((hall lead).1 hlead) (not_or.2 ⟨ha, hb⟩)
    · intro w a b hab ha hb
      simp only [hshown]
      rcases htie w a b hab ha hb with h | ⟨lead, hla, hlb, hlead, h, h'⟩
      · exact .inl ⟨w, h⟩
      · exact .inr ⟨lead, hla, hlb, hlead, ⟨w, h⟩, w, h'⟩

/-! ## Three actions that tie -/

/-- Actions that all have the same priority. -/
def sameRank (describe : ActionId → String) : Catalog where
  priority _ := 0
  merge _ _ := .clash
  parts a := [a]
  describe := describe

theorem exists_threeArmed : ∃ pair whole, (armedX 0).or (armedX 1) = .ok pair ∧
    pair.or (armedX 2) = .ok whole ∧ whole.Built ∧
    ∀ w a, a ∈ whole.actions w ↔ (a = 0 ∨ a = 1 ∨ a = 2) ∧ w = ['x'] := by
  have hbuilt : (armedX 2).Built := .addAction 2 (.literal {} "x")
  obtain ⟨pair, hpair, hpairBuilt, hgroups, hactions⟩ := exists_twoArmed
  obtain ⟨whole, hwhole⟩ : ∃ whole, pair.or (armedX 2) = .ok whole :=
    exists_or_eq_ok ((congrArg (· + 0) hgroups).trans_le (Nat.zero_le _))
  refine ⟨pair, whole, hpair, hwhole, .or hpairBuilt hbuilt hwhole, fun w a => ?_⟩
  have harmed : a ∈ (armedX 2).actions w ↔ a = 2 ∧ w = ['x'] := mem_actions_literal_addAction
  rw [mem_actions_or hpairBuilt.wellFormed hbuilt.wellFormed hwhole, hactions, harmed,
    ← or_and_right, or_assoc]

/-- One of the three leads, and the other two are led by it. -/
theorem exists_led {whole : Nfa} (describe : ActionId → String) (hwf : whole.WellFormed)
    (hactions : ∀ w a, a ∈ whole.actions w ↔ (a = 0 ∨ a = 1 ∨ a = 2) ∧ w = ['x']) :
    ∃ lead a b, lead ≠ a ∧ lead ≠ b ∧ a ≠ b ∧
      (∀ c, Foremost (sameRank describe) (whole.actions ['x']) c ↔ c = lead ∨ c = a ∨ c = b) ∧
      ∀ pair, (∃ w lead b, whole.Leads (sameRank describe) w lead ∧ b ≠ lead ∧
        Foremost (sameRank describe) (whole.actions w) b ∧ s(lead, b) = pair) ↔
          pair = s(lead, a) ∨ pair = s(lead, b) := by
  have hforemost : ∀ w c, Foremost (sameRank describe) (whole.actions w) c ↔
      (c = 0 ∨ c = 1 ∨ c = 2) ∧ w = ['x'] := by
    intro w c
    rw [← hactions]
    exact ⟨fun h => h.mem, fun h => ⟨h, fun _ _ => le_refl _⟩⟩
  obtain ⟨lead, hlead⟩ : ∃ lead, whole.Leads (sameRank describe) ['x'] lead :=
    exists_leads hwf ((hactions _ 0).2 ⟨.inl rfl, rfl⟩)
  obtain ⟨a, b, hla, hlb, hab, hall⟩ : ∃ a b, lead ≠ a ∧ lead ≠ b ∧ a ≠ b ∧
      ∀ c, (c = 0 ∨ c = 1 ∨ c = 2) ↔ c = lead ∨ c = a ∨ c = b := by
    rcases ((hforemost _ _).1 hlead.foremost).1 with rfl | rfl | rfl
    · exact ⟨1, 2, by decide, by decide, by decide, fun c => Iff.rfl⟩
    · exact ⟨0, 2, by decide, by decide, by decide, fun c => or_left_comm⟩
    · exact ⟨0, 1, by decide, by decide, by decide, fun c => or_rotate.symm⟩
  refine ⟨lead, a, b, hla, hlb, hab, fun c => ?_, fun pair => ?_⟩
  · rw [hforemost, hall]
    exact and_iff_left rfl
  · constructor
    · rintro ⟨w, lead', c, hlead', hne, hc, rfl⟩
      obtain ⟨hmem, rfl⟩ := (hforemost w c).1 hc
      obtain rfl := hlead.unique hlead'
      rcases ((hall c).1 hmem).resolve_left hne with rfl | rfl
      · exact .inl rfl
      · exact .inr rfl
    · rintro (rfl | rfl)
      · exact ⟨['x'], lead, a, hlead, hla.symm,
          (hforemost _ a).2 ⟨(hall a).2 (.inr (.inl rfl)), rfl⟩, rfl⟩
      · exact ⟨['x'], lead, b, hlead, hlb.symm,
          (hforemost _ b).2 ⟨(hall b).2 (.inr (.inr rfl)), rfl⟩, rfl⟩

/-- Three actions for the same text are a tie, and two entries are all that the report has. -/
theorem ties_reported_threeArmed : ∃ pair whole clashes, (armedX 0).or (armedX 1) = .ok pair ∧
    pair.or (armedX 2) = .ok whole ∧
    whole.compile (sameRank fun _ => "") .copy none = .error clashes ∧ clashes.length = 2 := by
  obtain ⟨pair, whole, hpair, hwhole, hbuilt, hactions⟩ := exists_threeArmed
  obtain ⟨lead, a, b, hla, hlb, hab, hforemost, hled⟩ :=
    exists_led (fun _ => "") hbuilt.wellFormed hactions
  obtain ⟨hfails, hreport⟩ := ties_reported hbuilt (sameRank fun _ => "") .copy none
    fun _ _ _ _ _ => rfl
  obtain ⟨clashes, hclashes⟩ := hfails.2 ⟨['x'], lead, a, hla, (hforemost lead).2 (.inl rfl),
    (hforemost a).2 (.inr (.inl rfl))⟩
  obtain ⟨kept, hreported, hnodup, hpairs, -⟩ := hreport clashes hclashes
  have hperm : (kept.map Clash.Found.pair).Perm [s(lead, a), s(lead, b)] := by
    have hne : s(lead, a) ≠ s(lead, b) := fun h => hab (Sym2.congr_right.1 h)
    rw [List.perm_ext_iff_of_nodup hnodup (List.pairwise_pair.2 hne)]
    intro pair
    rw [hpairs, hled]
    simp
  have hlength := hperm.length_eq
  rw [List.length_map, hreported.length_eq] at hlength
  exact ⟨pair, whole, clashes, hpair, hwhole, hclashes, hlength⟩

/-- Of the three, two that share the greatest priority are not shown as a pair: no entry has their
names. -/
theorem third_tie_unreported :
    let describe (a : ActionId) : String := String.ofList (List.replicate a 'n')
    ∃ pair whole clashes, (armedX 0).or (armedX 1) = .ok pair ∧ pair.or (armedX 2) = .ok whole ∧
      whole.compile (sameRank describe) .copy none = .error clashes ∧
      ∃ a b, a ≠ b ∧ Foremost (sameRank describe) (whole.actions ['x']) a ∧
        Foremost (sameRank describe) (whole.actions ['x']) b ∧
        ∀ entry ∈ clashes, s(entry.first, entry.second) ≠ s(describe a, describe b) := by
  intro describe
  obtain ⟨pair, whole, hpair, hwhole, hbuilt, hactions⟩ := exists_threeArmed
  have hmerge : ∀ w, (sameRank describe).MergesByPriorityAmong (whole.actions w) :=
    fun _ _ _ _ _ => rfl
  obtain ⟨lead, a, b, hla, hlb, hab, hforemost, hled⟩ :=
    exists_led describe hbuilt.wellFormed hactions
  have hshown : ∀ pair, pair ∈ (whole.clashesKept (sameRank describe)).map Clash.Found.pair ↔
      pair = s(lead, a) ∨ pair = s(lead, b) :=
    fun pair => (mem_clashesKept hbuilt.wellFormed hmerge).trans (hled pair)
  have hne : whole.clashingPairs (sameRank describe) ≠ [] := by
    have hmem := (hshown _).2 (.inl rfl)
    rw [map_pair_clashesKept, List.mem_eraseDups] at hmem
    exact List.ne_nil_of_mem hmem
  refine ⟨pair, whole, _, hpair, hwhole, compile_eq_error_iff.2 ⟨hne, rfl⟩, a, b, hab,
    (hforemost a).2 (.inr (.inl rfl)), (hforemost b).2 (.inr (.inr rfl)), ?_⟩
  intro entry hentry heq
  obtain ⟨c, hc, rfl⟩ := List.mem_map.1 hentry
  have hdescribe : Function.Injective describe := by
    intro m n h
    have hlength := congrArg (fun s => s.toList.length) h
    simpa [describe] using hlength
  -- the names tell the actions apart, so the entry would be for the two that are led
  have hpairs : c.pair = s(a, b) := Sym2.map.injective hdescribe heq
  have hmem := List.mem_map_of_mem (f := Clash.Found.pair) hc
  rw [hshown] at hmem
  have hlead : lead ∈ c.pair := by
    rcases hmem with h | h
    · exact h ▸ Sym2.mem_mk_left lead a
    · exact h ▸ Sym2.mem_mk_left lead b
  rw [hpairs, Sym2.mem_iff] at hlead
  exact (not_or.2 ⟨hla, hlb⟩) hlead

end Nfa

end LongestMatch
