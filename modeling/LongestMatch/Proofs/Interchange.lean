import LongestMatch.Proofs.Likeness
import LongestMatch.Proofs.Meaning

/-!
# Patterns in any order

Patterns with their own actions are put together one after another (`Nfa.anyOf`). What a text leads
to in the result is what it leads to in one of the parts (`Nfa.Gathers`), so it depends on the set
of patterns and actions and not on their order. With verdicts by priority, matching depends on
nothing else: `anyOf_perm`.
-/

namespace LongestMatch

namespace Nfa

variable {nfa other piece whole : Nfa} {pattern : String} {action a : ActionId}
  {first first' p : String × ActionId} {rest rest' ps qs : List (String × ActionId)}
  {B : Badge → Prop} {w : List Char} {catalog : Catalog}

/-- Patterns with their own actions: the first one, and the others as alternatives to it. -/
def anyOf (first : String × ActionId) (rest : List (String × ActionId)) : Except Error Nfa := do
  rest.foldlM (fun nfa p => nfa.orPattern p.1 p.2) (← withAction first.1 first.2)

/-! ## One pattern -/

theorem withAction_eq_ok : withAction pattern action = .ok piece ↔
    ∃ nfa, ofPattern {} pattern = .ok nfa ∧ nfa.addAction action = piece := by
  rw [withAction, Except.bind_eq_ok]
  apply exists_congr
  intro nfa
  apply and_congr_right
  intro _
  show Except.ok (nfa.addAction action) = Except.ok piece ↔ _
  rw [Except.ok.injEq]

theorem silent_ofPattern {config : Config} (h : ofPattern config pattern = .ok nfa) :
    nfa.Silent := by
  obtain ⟨t, ht⟩ := Pattern.exists_tree_of_fault (Pattern.exists_builder_of_ofPattern h).1
  exact (speaks_ofPattern h ht).silent

/-- A text leads to no other action. -/
theorem eq_of_mem_actions_withAction (h : withAction pattern action = .ok piece)
    (ha : a ∈ piece.actions w) : a = action := by
  obtain ⟨nfa, hpattern, rfl⟩ := withAction_eq_ok.1 h
  rw [(silent_ofPattern hpattern).actions_addAction (built_ofPattern hpattern).wellFormed] at ha
  exact ha.1

/-! ## Parts put together -/

/-- Something is at the badge, whatever the numbers of its unbound groups are. -/
structure Badge.Telling (B : Badge → Prop) : Prop where
  not_blank : ¬B Badge.blank
  shift_iff : ∀ offset b, B (b.shift offset) ↔ B b

theorem Badge.telling_acts (a : ActionId) : Telling (Badge.Acts a) :=
  ⟨Badge.not_acts_blank a, fun _ _ => Iff.rfl⟩

theorem Badge.telling_marks (a : ActionId) (group : Nat) (role : Role) :
    Telling (Badge.Marks a group role) :=
  ⟨Badge.not_marks_blank a group role, fun _ _ => Marks.has_shiftUnbound_some⟩

/-- What a text leads to is what it leads to in one of the parts. -/
structure Gathers (ps : List (String × ActionId)) (nfa : Nfa) : Prop where
  built : nfa.Built
  config_eq : nfa.config = {}
  nextGroup_eq : nfa.nextGroup = 0
  sees_iff : ∀ B, Badge.Telling B → ∀ w, nfa.Sees B nfa.start w ↔
    ∃ p ∈ ps, ∃ piece, withAction p.1 p.2 = .ok piece ∧ piece.Sees B piece.start w

theorem gathers_withAction (h : withAction p.1 p.2 = .ok piece) : Gathers [p] piece := by
  obtain ⟨nfa, hpattern, rfl⟩ := withAction_eq_ok.1 h
  have hconfig : (nfa.addAction p.2).config = nfa.config := config_modifyAll _ _ _
  refine ⟨.addAction p.2 (built_ofPattern hpattern), hconfig.trans (config_ofPattern hpattern), rfl,
    fun B hB w => ?_⟩
  simp [h]

/-- One more pattern is one more part. -/
theorem Gathers.orPattern (hg : Gathers ps nfa) (h : ∃ nfa, ofPattern {} p.1 = .ok nfa) :
    ∃ whole, nfa.orPattern p.1 p.2 = .ok whole ∧ Gathers (ps ++ [p]) whole := by
  obtain ⟨other, hpattern⟩ := h
  have hpiece : withAction p.1 p.2 = .ok (other.addAction p.2) :=
    withAction_eq_ok.2 ⟨other, hpattern, rfl⟩
  have ho := gathers_withAction hpiece
  obtain ⟨whole, hor⟩ : ∃ whole, nfa.or (other.addAction p.2) = .ok whole := by
    apply exists_or_eq_ok
    rw [hg.nextGroup_eq, ho.nextGroup_eq]
    exact Nat.zero_le _
  refine ⟨whole, Except.bind_eq_ok.2 ⟨other, ?_, ofOverflow_eq_ok.2 hor⟩, .or hg.built ho.built hor,
    (config_or hor).trans hg.config_eq, ?_, fun B hB w => ?_⟩
  · rw [hg.config_eq]
    exact hpattern
  · rw [nextGroup_or hor, hg.nextGroup_eq, ho.nextGroup_eq]
  · rw [sees_or hg.built.wellFormed ho.built.wellFormed hB.not_blank hor]
    simp only [hB.shift_iff, hg.sees_iff B hB, ho.sees_iff B hB, List.mem_append, or_and_right,
      exists_or]

theorem Gathers.foldlM (hg : Gathers ps nfa) (h : ∀ p ∈ rest, ∃ nfa, ofPattern {} p.1 = .ok nfa) :
    ∃ whole, rest.foldlM (fun nfa p => nfa.orPattern p.1 p.2) nfa = .ok whole ∧
      Gathers (ps ++ rest) whole := by
  induction rest generalizing nfa ps with
  | nil => exact ⟨nfa, rfl, (List.append_nil ps).symm ▸ hg⟩
  | cons p rest ih =>
    obtain ⟨hp, hrest⟩ := List.forall_mem_cons.1 h
    obtain ⟨more, hmore, hgathers⟩ := hg.orPattern hp
    obtain ⟨whole, hwhole, hall⟩ := ih hgathers hrest
    refine ⟨whole, ?_, ?_⟩
    · rw [List.foldlM_cons, Except.bind_eq_ok]
      exact ⟨more, hmore, hwhole⟩
    · rwa [List.append_assoc] at hall

/-- Valid patterns can always be put together. -/
theorem exists_anyOf (h : ∀ p ∈ first :: rest, ∃ nfa, ofPattern {} p.1 = .ok nfa) :
    ∃ nfa, anyOf first rest = .ok nfa ∧ Gathers (first :: rest) nfa := by
  obtain ⟨⟨nfa, hfirst⟩, hrest⟩ := List.forall_mem_cons.1 h
  have hpiece : withAction first.1 first.2 = .ok (nfa.addAction first.2) :=
    withAction_eq_ok.2 ⟨nfa, hfirst, rfl⟩
  obtain ⟨whole, hwhole, hgathers⟩ := (gathers_withAction hpiece).foldlM hrest
  exact ⟨whole, Except.bind_eq_ok.2 ⟨_, hpiece, hwhole⟩, hgathers⟩

/-- The same parts make automata that are alike. -/
theorem Gathers.alike (hn : Gathers ps nfa) (ho : Gathers qs other)
    (hmem : ∀ p, p ∈ ps ↔ p ∈ qs) : nfa.Alike other := by
  have hsees : ∀ B, Badge.Telling B → ∀ w,
      nfa.Sees B nfa.start w ↔ other.Sees B other.start w := by
    intro B hB w
    rw [hn.sees_iff B hB, ho.sees_iff B hB]
    simp only [hmem]
  exact ⟨fun a => hsees _ (Badge.telling_acts a),
    fun a group role => hsees _ (Badge.telling_marks a group role)⟩

theorem Gathers.mem_of_mem_actions (h : Gathers ps nfa) (ha : a ∈ nfa.actions w) :
    a ∈ ps.map Prod.snd := by
  obtain ⟨p, hp, piece, hpiece, ha⟩ := (h.sees_iff _ (Badge.telling_acts a) w).1 ha
  rw [eq_of_mem_actions_withAction hpiece ha]
  exact List.mem_map_of_mem hp

/-! ## The order does not count -/

/-- Valid patterns, whose actions are ranked by priority, are put together in two orders. Either both
automata fail to compile, or both compile, and then they find the same matches with the same spans. -/
theorem anyOf_perm (hvalid : ∀ p ∈ first :: rest, ∃ nfa, ofPattern {} p.1 = .ok nfa)
    (hmerge : catalog.MergesByPriorityAmong {a | a ∈ (first :: rest).map Prod.snd})
    (hperm : (first :: rest).Perm (first' :: rest')) :
    ∃ N M, anyOf first rest = .ok N ∧ anyOf first' rest' = .ok M ∧
      ∀ failPolicy eofAction,
        ((∃ clashes, N.compile catalog failPolicy eofAction = .error clashes) ∧
          ∃ clashes, M.compile catalog failPolicy eofAction = .error clashes) ∨
        ∃ d e, N.compile catalog failPolicy eofAction = .ok d ∧
          M.compile catalog failPolicy eofAction = .ok e ∧
          ∀ text : String, d.find? text = e.find? text ∧
            ∀ out, (d.matchNext (Source.ofString text) out).result =
                (e.matchNext (Source.ofString text) out).result ∧
              (d.matchNext (Source.ofString text) out).spans =
                (e.matchNext (Source.ofString text) out).spans := by
  obtain ⟨N, hN, hgN⟩ := exists_anyOf hvalid
  obtain ⟨M, hM, hgM⟩ : ∃ nfa, anyOf first' rest' = .ok nfa ∧ Gathers (first' :: rest') nfa :=
    exists_anyOf fun p hp => hvalid p (hperm.mem_iff.2 hp)
  have halike : N.Alike M := hgN.alike hgM fun p => hperm.mem_iff
  have hranked : ∀ w, catalog.MergesByPriorityAmong (N.actions w) :=
    fun w => hmerge.mono fun a ha => hgN.mem_of_mem_actions ha
  refine ⟨N, M, hN, hM, fun failPolicy eofAction => ?_⟩
  have hboth : (∃ dfa, N.compile catalog failPolicy eofAction = .ok dfa) ↔
      ∃ dfa, M.compile catalog failPolicy eofAction = .ok dfa := halike.exists_compile hranked
  cases hd : N.compile catalog failPolicy eofAction with
  | error clashes =>
    left
    cases he : M.compile catalog failPolicy eofAction with
    | error clashes' => exact ⟨⟨clashes, rfl⟩, clashes', rfl⟩
    | ok e =>
      obtain ⟨d, hd'⟩ := hboth.2 ⟨e, he⟩
      rw [hd] at hd'
      cases hd'
  | ok d =>
    right
    obtain ⟨e, he⟩ := hboth.1 ⟨d, hd⟩
    refine ⟨d, e, rfl, he, fun text => ⟨?_, fun out => ?_⟩⟩
    · exact Dfa.find?_congr (halike.actionFrom_eq hranked hd he) text
    · obtain ⟨hresult, -, hspans⟩ := halike.matchLimited_eq hgN.built hgM.built hranked hd he
        (Source.reliable_ofString text) none out
      exact ⟨hresult, hspans⟩

/-- A group of `ab` is reported in the same way before and behind `a?`, if both have the same action.
-/
theorem anyOf_perm_sameAction :
    let catalog : Catalog := ⟨fun _ => 0, fun _ _ => .clash, fun a => [a], fun _ => ""⟩
    ∃ N M, anyOf ("(!ab)", 7) [("a?", 7)] = .ok N ∧ anyOf ("a?", 7) [("(!ab)", 7)] = .ok M ∧
      ∃ d e, N.compile catalog .copy none = .ok d ∧ M.compile catalog .copy none = .ok e ∧
        d.find? "ab" = e.find? "ab" ∧ (d.matchNext (Source.ofString "ab") "").spans =
          (e.matchNext (Source.ofString "ab") "").spans := by
  intro catalog
  have hvalid : ∀ p ∈ [("(!ab)", 7), ("a?", 7)], ∃ nfa, ofPattern {} p.1 = .ok nfa := by
    simp only [List.forall_mem_cons, List.not_mem_nil, false_imp_iff, implies_true, and_true]
    exact ⟨exists_of_isOk "(!ab)" (by decide +kernel), exists_of_isOk "a?" (by decide +kernel)⟩
  have hmerge : catalog.MergesByPriorityAmong {a | a ∈ [7, 7]} := fun _ _ _ _ => rfl
  obtain ⟨N, M, hN, hM, hcompile⟩ := anyOf_perm hvalid hmerge (List.Perm.swap _ _ [])
  refine ⟨N, M, hN, hM, ?_⟩
  rcases hcompile .copy none with ⟨hfails, -⟩ | ⟨d, e, hd, he, hsame⟩
  · -- with one action only, nothing clashes
    obtain ⟨N', hN', hgathers⟩ := exists_anyOf hvalid
    obtain rfl : N = N' := Except.ok.inj (hN.symm.trans hN')
    obtain ⟨w, hw⟩ := compile_error_iff.1 hfails
    have hone : ∀ b ∈ N.actions w, b = 7 := by
      intro b hb
      simpa using hgathers.mem_of_mem_actions hb
    exact absurd (clashes_resolution_of_forall_eq hone) hw
  · exact ⟨d, e, hd, he, (hsame "ab").1, ((hsame "ab").2 "").2⟩

end Nfa

end LongestMatch
