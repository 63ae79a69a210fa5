import LongestMatch.Nfa.Atoms
import LongestMatch.Proofs.Operators
import LongestMatch.Proofs.Partition

/-!
# Automata of single characters and fixed texts

What the atoms read: nothing, one character in or outside a set, any one character, one text. Their
states carry neither an action nor a marker.
-/

namespace LongestMatch

namespace Nfa

variable {nfa : Nfa} {config : Config} {p q : Nat} {l : Option Char} {c : Char} {w : List Char}

/-- No state has an action. -/
def Silent (nfa : Nfa) : Prop :=
  ∀ p, (nfa.state p).action = none

theorem Silent.actions_eq (h : nfa.Silent) (w : List Char) : nfa.actions w = ∅ := by
  rw [Set.eq_empty_iff_forall_notMem]
  rintro a ⟨q, -, ha⟩
  rw [h q] at ha
  cases ha

/-- An action that is added to such an automaton is the only one. -/
theorem Silent.actions_addAction (h : nfa.Silent) (hn : nfa.WellFormed) (action : ActionId)
    (w : List Char) : (nfa.addAction action).actions w = {a | a = action ∧ w ∈ nfa.language} := by
  ext a
  rw [mem_actions_addAction hn action]
  apply or_iff_right
  intro hold
  obtain ⟨q, -, -, ha⟩ := hold
  rw [h q] at ha
  cases ha

theorem Silent.recognized_addAction (h : nfa.Silent) (hn : nfa.WellFormed) (action : ActionId) :
    (nfa.addAction action).recognized = nfa.language := by
  ext w
  rw [mem_recognized_iff, h.actions_addAction hn, language_addAction]
  apply or_iff_left_of_imp
  rintro ⟨a, -, hw⟩
  exact hw

/-- No state carries anything. -/
def Blank (nfa : Nfa) : Prop :=
  ∀ p, (nfa.state p).badge = Badge.blank

theorem Blank.silent (h : nfa.Blank) : nfa.Silent :=
  fun p => congrArg Prod.fst (h p)

/-! ## No text -/

theorem state_empty (config : Config) (p : Nat) : (empty config).state p = {} := by
  rw [state, empty, Array.getD_eq_getD_getElem?, Array.getElem?_replicate]
  split <;> rfl

theorem no_edge_empty : ¬(empty config).Edge p l q := by
  rw [Edge, state_empty]
  exact State.edge_of_targets_nil rfl

theorem blank_empty (config : Config) : (empty config).Blank := by
  intro p
  rw [state_empty]
  rfl

theorem wellFormed_empty (config : Config) : (empty config).WellFormed := by
  refine ⟨Nat.zero_lt_two, Nat.one_lt_two, Nat.zero_ne_one, fun p l q e => ?_, fun p l e => ?_,
    fun l q => no_edge_empty, (blank_empty config).silent _, fun p => ?_⟩
  · exact absurd e no_edge_empty
  · exact absurd e no_edge_empty
  · rw [state_empty]
    exact Transition.sorted_nil

/-! ## One character -/

/-- The automaton with transitions from the start to the last state and nothing else. -/
def oneStep (config : Config) (ts : List Transition) : Nfa :=
  (empty config).modify 0 fun s => { s with trans := ts }

section OneStep

variable {ts : List Transition}

theorem state_oneStep :
    (oneStep config ts).state p = if p = 0 then { trans := ts } else {} := by
  rw [oneStep, state_modify, state_empty]
  simp [empty]

theorem edge_oneStep : (oneStep config ts).Edge p l q ↔
    p = 0 ∧ ∃ c, l = some c ∧ Transition.Leads ts c q := by
  rw [Edge, state_oneStep]
  split
  · next hp =>
    cases l with
    | none => simp [State.Edge]
    | some c => simp [State.Edge, hp]
  · next hp =>
    have hno : ¬({} : State).Edge l q := State.edge_of_targets_nil rfl
    simp [hp, hno]

theorem blank_oneStep : (oneStep config ts).Blank := by
  intro p
  rw [state_oneStep]
  split <;> rfl

variable (hlast : ∀ c q, Transition.Leads ts c q → q = 1)

include hlast

theorem wellFormed_oneStep (hsorted : Transition.Sorted ts) : (oneStep config ts).WellFormed := by
  have hsize : (oneStep config ts).states.size = 2 := size_modify _ _
  refine ⟨hsize ▸ Nat.zero_lt_two, hsize ▸ Nat.one_lt_two, Nat.zero_ne_one, fun p l q e => ?_,
    fun p l e => ?_, fun l q e => ?_, blank_oneStep.silent _, fun p => ?_⟩
  · obtain ⟨-, c, -, hc⟩ := edge_oneStep.1 e
    have := hlast c q hc
    omega
  · obtain ⟨-, c, -, hc⟩ := edge_oneStep.1 e
    exact Nat.zero_ne_one (hlast c _ hc)
  · exact Nat.one_ne_zero (edge_oneStep.1 e).1
  · rw [state_oneStep]
    split
    · exact hsorted
    · exact Transition.sorted_nil

theorem mem_language_oneStep :
    w ∈ (oneStep config ts).language ↔ ∃ c, w = [c] ∧ Transition.Leads ts c 1 := by
  have hto : ∀ l q, (oneStep config ts).Edge 0 l q → q = 1 := by
    intro l q e
    obtain ⟨-, c, -, hlead⟩ := edge_oneStep.1 e
    exact hlast c q hlead
  have hend : ∀ l q, ¬(oneStep config ts).Edge 1 l q := fun l q e =>
    Nat.one_ne_zero (edge_oneStep.1 e).1
  show Trail (oneStep config ts).Edge 0 w 1 ↔ _
  rw [trail_of_last_edge hto hend Nat.zero_ne_one]
  constructor
  · intro h
    obtain ⟨l, e, rfl⟩ := h
    obtain ⟨-, c, rfl, hlead⟩ := edge_oneStep.1 e
    exact ⟨c, rfl, hlead⟩
  · intro h
    obtain ⟨c, rfl, hlead⟩ := h
    exact ⟨some c, edge_oneStep.2 ⟨rfl, c, rfl, hlead⟩, rfl⟩

end OneStep

/-! ## Sets of characters -/

/-- Covering ranges one after another gives the target to what lies in one of them. -/
theorem cover_ranges {iv : Intervals Nat} (hv : iv.Valid) (target : Nat) (ranges : List CharRange) :
    let covered := ranges.foldl (fun iv r => cover iv target r) iv
    covered.Valid ∧ ∀ (c : Char) (q : Nat), covered.get c.toNat = some q ↔
      q = target ∧ (∃ r ∈ ranges, r.contains c = true) ∨
        iv.get c.toNat = some q ∧ ∀ r ∈ ranges, r.contains c = false := by
  induction ranges generalizing iv with
  | nil => exact ⟨hv, fun c q => by simp⟩
  | cons r ranges ih =>
    obtain ⟨hvalid, hget⟩ := ih (hv.overwrite r.lo.toNat r.hi.toNat target)
    refine ⟨hvalid, fun c q => ?_⟩
    rw [List.foldl_cons]
    apply (hget c q).trans
    rw [hv.get_overwrite _ _ _ (Char.toNat_le_maxCode c)]
    by_cases hrc : r.contains c = true
    · rw [if_pos (CharRange.contains_iff.1 hrc)]
      simp only [List.mem_cons, Option.some.injEq, exists_eq_or_imp, hrc, true_or, and_true,
        forall_eq_or_imp, Bool.true_eq_false, false_and, and_false, or_false]
      by_cases hrest : ∃ r ∈ ranges, r.contains c = true
      · grind
      · have hnone : ∀ r ∈ ranges, r.contains c = false := by
          intro r hr
          by_contra hne
          exact hrest ⟨r, hr, by simpa using hne⟩
        grind
    · rw [if_neg fun h => hrc (CharRange.contains_iff.2 h)]
      simp [hrc]

/-- Filling segments that are unset, among those given, gives the target to what lies in one. -/
theorem fill_segments {iv : Intervals Nat} (hv : iv.Valid) (target : Nat)
    (segments : List (Segment Nat)) :
    let filled := segments.foldl
      (fun iv s => if s.value.isNone then iv.overwrite s.lo s.hi target else iv) iv
    filled.Valid ∧ ∀ (c : Char) (q : Nat), filled.get c.toNat = some q ↔
      q = target ∧ (∃ s ∈ segments, s.value = none ∧ s.lo ≤ c.toNat ∧ c.toNat ≤ s.hi) ∨
        iv.get c.toNat = some q ∧
          ¬∃ s ∈ segments, s.value = none ∧ s.lo ≤ c.toNat ∧ c.toNat ≤ s.hi := by
  induction segments generalizing iv with
  | nil => exact ⟨hv, fun c q => by simp⟩
  | cons s segments ih =>
    rw [List.foldl_cons]
    split
    · next hnone =>
      rw [Option.isNone_iff_eq_none] at hnone
      obtain ⟨hvalid, hget⟩ := ih (hv.overwrite s.lo s.hi target)
      refine ⟨hvalid, fun c q => (hget c q).trans ?_⟩
      rw [hv.get_overwrite _ _ _ (Char.toNat_le_maxCode c)]
      by_cases hin : s.lo ≤ c.toNat ∧ c.toNat ≤ s.hi
      · rw [if_pos hin]
        simp only [List.mem_cons, exists_eq_or_imp, hnone, hin, Option.some.injEq]
        grind
      · rw [if_neg hin]
        simp [hnone, hin]
    · next hsome =>
      have hsome : s.value ≠ none := fun h => hsome (by rw [h]; rfl)
      obtain ⟨hvalid, hget⟩ := ih hv
      refine ⟨hvalid, fun c q => (hget c q).trans ?_⟩
      simp [hsome]

/-- What a set of ranges, or its complement, holds. -/
def InSet (ranges : List CharRange) (inverted : Bool) (c : Char) : Prop :=
  if inverted then ∀ r ∈ ranges, r.contains c = false else ∃ r ∈ ranges, r.contains c = true

theorem get_outside {iv : Intervals Nat} (hv : iv.Valid) (target : Nat) :
    (outside iv target).Valid ∧ ∀ (c : Char) (q : Nat),
      (outside iv target).get c.toNat = some q ↔ q = target ∧ iv.get c.toNat = none := by
  obtain ⟨hvalid, hget⟩ := fill_segments Intervals.valid_unset target iv.segments
  refine ⟨hvalid, fun c q => (hget c q).trans ?_⟩
  rw [Intervals.get_unset]
  simp only [reduceCtorEq, false_and, or_false]
  refine and_congr_right fun _ => ⟨?_, fun hnone => ?_⟩
  · intro h
    obtain ⟨s, hs, hnone, hlo, hhi⟩ := h
    rw [← hv.value_eq_get hs hlo hhi, hnone]
  · obtain ⟨s, hs, hlo, hhi, hval⟩ := hv.exists_segment _ (Char.toNat_le_maxCode c)
    exact ⟨s, hs, by rw [hval, hnone], hlo, hhi⟩

theorem charSet_eq (config : Config) (ranges : List CharRange) (inverted : Bool) :
    ∃ ts, charSet config ranges inverted = oneStep config ts ∧ Transition.Sorted ts ∧
      ∀ c q, Transition.Leads ts c q ↔ q = 1 ∧ InSet ranges inverted c := by
  obtain ⟨hvalid, hget⟩ := cover_ranges Intervals.valid_unset 1 ranges
  rw [charSet]
  cases inverted with
  | false =>
    refine ⟨_, rfl, Intervals.sorted_toTransitions hvalid, fun c q => ?_⟩
    refine (Intervals.leads_toTransitions hvalid).trans ((hget c q).trans ?_)
    rw [Intervals.get_unset]
    simp [InSet]
  | true =>
    obtain ⟨hvalid', hget'⟩ := get_outside hvalid 1
    refine ⟨_, rfl, Intervals.sorted_toTransitions hvalid', fun c q => ?_⟩
    refine (Intervals.leads_toTransitions hvalid').trans ((hget' c q).trans ?_)
    apply and_congr_right
    intro _
    rw [Option.eq_none_iff_forall_ne_some]
    simp only [ne_eq, hget, Intervals.get_unset]
    simp [InSet]

theorem wellFormed_charSet (config : Config) (ranges : List CharRange) (inverted : Bool) :
    (charSet config ranges inverted).WellFormed := by
  obtain ⟨ts, heq, hsorted, hleads⟩ := charSet_eq config ranges inverted
  rw [heq]
  exact wellFormed_oneStep (fun c q h => ((hleads c q).1 h).1) hsorted

theorem blank_charSet (config : Config) (ranges : List CharRange) (inverted : Bool) :
    (charSet config ranges inverted).Blank := by
  obtain ⟨ts, heq, -, -⟩ := charSet_eq config ranges inverted
  rw [heq]
  exact blank_oneStep

theorem silent_charSet (config : Config) (ranges : List CharRange) (inverted : Bool) :
    (charSet config ranges inverted).Silent :=
  (blank_charSet config ranges inverted).silent

theorem mem_language_charSet {ranges : List CharRange} {inverted : Bool} :
    w ∈ (charSet config ranges inverted).language ↔ ∃ c, w = [c] ∧ InSet ranges inverted c := by
  obtain ⟨ts, heq, -, hleads⟩ := charSet_eq config ranges inverted
  rw [heq, mem_language_oneStep fun c q h => ((hleads c q).1 h).1]
  simp [hleads]

/-! ## Any character -/

theorem contains_everyChar (c : Char) : everyChar.contains c = true := by
  rw [CharRange.contains_iff]
  exact ⟨Nat.zero_le _, Char.toNat_le_maxCode c⟩

theorem leads_everyChar : Transition.Leads [⟨everyChar, 1⟩] c q ↔ q = 1 := by
  simp [Transition.leads_cons, Transition.leads_nil, contains_everyChar, eq_comm]

theorem anyChar_eq (config : Config) : anyChar config = oneStep config [⟨everyChar, 1⟩] :=
  rfl

theorem wellFormed_anyChar (config : Config) : (anyChar config).WellFormed := by
  rw [anyChar_eq]
  refine wellFormed_oneStep (fun c q h => leads_everyChar.1 h) ⟨List.pairwise_singleton _ _, ?_⟩
  intro t ht
  obtain rfl := List.mem_singleton.1 ht
  exact Nat.zero_le _

theorem blank_anyChar (config : Config) : (anyChar config).Blank :=
  blank_oneStep

theorem silent_anyChar (config : Config) : (anyChar config).Silent :=
  (blank_anyChar config).silent

theorem mem_language_anyChar : w ∈ (anyChar config).language ↔ ∃ c, w = [c] := by
  rw [anyChar_eq, mem_language_oneStep fun c q h => leads_everyChar.1 h]
  simp [leads_everyChar]

/-! ## Texts -/

theorem edge_single {t : Nat} {s : State} (htrans : s.trans = [⟨CharRange.single c, t⟩])
    (heps : s.eps = []) : s.Edge l q ↔ l = some c ∧ q = t := by
  cases l with
  | none => simp [State.Edge, heps]
  | some d =>
    rw [State.Edge, htrans, Transition.leads_cons]
    show (CharRange.single c).contains d = true ∧ t = q ∨ _ ↔ _
    rw [CharRange.contains_single, or_iff_left (Transition.leads_nil d q), Option.some.injEq]
    exact and_congr_right fun _ => eq_comm

theorem sorted_single (c : Char) (t : Nat) : Transition.Sorted [⟨CharRange.single c, t⟩] := by
  refine ⟨List.pairwise_singleton _ _, fun u hu => ?_⟩
  obtain rfl := List.mem_singleton.1 hu
  exact Nat.le_refl _

/-- What the automaton `whole` has become when `text` was spelled from the state `source` of
`nfa`. -/
structure Spelled (nfa whole : Nfa) (source : Nat) (text : List Char) : Prop where
  size_le : nfa.states.size ≤ whole.states.size
  start_eq : whole.start = nfa.start
  last_eq : whole.last = nfa.last
  state_eq : ∀ p, p < nfa.states.size → p ≠ source → whole.state p = nfa.state p
  edge_new : ∀ p l q, p = source ∨ nfa.states.size ≤ p → whole.Edge p l q →
    q = nfa.last ∨ nfa.states.size ≤ q ∧ q < whole.states.size
  badge_new : ∀ p, p = source ∨ nfa.states.size ≤ p → (whole.state p).badge = Badge.blank
  sorted_new : ∀ p, p = source ∨ nfa.states.size ≤ p → Transition.Sorted (whole.state p).trans
  trail_iff : ∀ w, Trail whole.Edge source w nfa.last ↔ w = text

section Spell

variable {source : Nat} (hsource : source < nfa.states.size) (hbare : nfa.state source = {})
  (hne : source ≠ nfa.last) (hend : ∀ l q, ¬nfa.Edge nfa.last l q)

include hsource hbare hne hend

/-- The last step of a text: all edges lead to the last state. -/
theorem spelled_modify {f : State → State} {s : State} {text : List Char} (hs : f {} = s)
    (hedge : ∀ l q, s.Edge l q → q = nfa.last) (hblank : s.badge = Badge.blank)
    (hsorted : Transition.Sorted s.trans)
    (htrail : ∀ w, (∃ l, s.Edge l nfa.last ∧ w = l.toList) ↔ w = text) :
    Spelled nfa (nfa.modify source f) source text := by
  have hat : (nfa.modify source f).state source = s := by
    rw [state_modify_self hsource, hbare, hs]
  have hother : ∀ p, p ≠ source → (nfa.modify source f).state p = nfa.state p :=
    fun p hp => state_modify_of_ne _ hp
  -- no state is new, so beyond the row there is nothing
  have hfar : ∀ p, p = source ∨ nfa.states.size ≤ p → p = source ∨
      (nfa.modify source f).state p = {} := by
    intro p hp
    by_cases hps : p = source
    · exact .inl hps
    · exact .inr ((hother p hps).trans (state_of_size_le (hp.resolve_left hps)))
  refine ⟨(size_modify _ _).ge, rfl, rfl, fun p _ hp => hother p hp, fun p l q hp e => ?_,
    fun p hp => ?_, fun p hp => ?_, fun w => ?_⟩
  · rcases hfar p hp with rfl | hempty
    · rw [Edge, hat] at e
      exact .inl (hedge l q e)
    · rw [Edge, hempty] at e
      exact absurd e (State.edge_of_targets_nil rfl)
  · rcases hfar p hp with rfl | hempty
    · rw [hat, hblank]
    · rw [hempty]
      rfl
  · rcases hfar p hp with rfl | hempty
    · rw [hat]
      exact hsorted
    · rw [hempty]
      exact Transition.sorted_nil
  · have hlast : ∀ l q, ¬(nfa.modify source f).Edge nfa.last l q := by
      intro l q
      rw [Edge, hother _ hne.symm]
      exact hend l q
    have hto : ∀ l q, (nfa.modify source f).Edge source l q → q = nfa.last := by
      intro l q e
      rw [Edge, hat] at e
      exact hedge l q e
    rw [trail_of_last_edge hto hlast hne, ← htrail w]
    simp only [Edge, hat]

theorem spelled_nil :
    Spelled nfa (nfa.modify source (State.addEps [nfa.last])) source [] := by
  refine spelled_modify hsource hbare hne hend rfl (fun l q e => ?_) rfl Transition.sorted_nil
    fun w => ?_
  · exact List.mem_singleton.1 (edge_of_eps.1 e).2
  · constructor
    · intro h
      obtain ⟨l, e, rfl⟩ := h
      rw [(edge_of_eps.1 e).1]
      rfl
    · intro hw
      exact ⟨none, edge_of_eps.2 ⟨rfl, List.mem_singleton.2 rfl⟩, hw⟩

theorem spelled_char (c : Char) : Spelled nfa
    (nfa.modify source fun s => { s with trans := s.trans ++ [⟨CharRange.single c, nfa.last⟩] })
    source [c] := by
  refine spelled_modify hsource hbare hne hend rfl (fun l q e => ((edge_single rfl rfl).1 e).2) rfl
    (sorted_single c _) fun w => ?_
  constructor
  · intro h
    obtain ⟨l, e, rfl⟩ := h
    rw [((edge_single rfl rfl).1 e).1]
    rfl
  · intro hw
    exact ⟨some c, (edge_single rfl rfl).2 ⟨rfl, rfl⟩, hw⟩

end Spell

/-- One more character in front: from `source` a single edge leads to the new state from which the
rest is spelled. -/
theorem Spelled.cons {stepped whole : Nfa} {source : Nat} {rest : List Char}
    (h : Spelled stepped whole nfa.states.size rest) (hsource : source < nfa.states.size)
    (hne : source ≠ nfa.last) (hsize : stepped.states.size = nfa.states.size + 1)
    (hstart : stepped.start = nfa.start) (hlast : stepped.last = nfa.last)
    (hat : stepped.state source = { trans := [⟨CharRange.single c, nfa.states.size⟩] })
    (hother : ∀ p, p ≠ source → stepped.state p = nfa.state p) :
    Spelled nfa whole source (c :: rest) := by
  have hsize' := h.size_le
  have hsource' : whole.state source = { trans := [⟨CharRange.single c, nfa.states.size⟩] } :=
    (h.state_eq source (by omega) hsource.ne).trans hat
  have hedges : ∀ l q, whole.Edge source l q ↔ l = some c ∧ q = nfa.states.size := by
    intro l q
    rw [Edge, hsource']
    exact edge_single rfl rfl
  -- beyond the old row there are only states of the rest
  have hrest : ∀ p, p = source ∨ nfa.states.size ≤ p →
      p = source ∨ p = nfa.states.size ∨ stepped.states.size ≤ p := by
    omega
  refine ⟨by omega, h.start_eq.trans hstart, h.last_eq.trans hlast, fun p hp hps => ?_,
    fun p l q hp e => ?_, fun p hp => ?_, fun p hp => ?_, fun w => ?_⟩
  · rw [h.state_eq p (by omega) (by omega), hother p hps]
  · rcases hrest p hp with rfl | hp
    · have := ((hedges l q).1 e).2
      omega
    · have := h.edge_new p l q hp e
      omega
  · rcases hrest p hp with rfl | hp
    · rw [hsource']
      rfl
    · exact h.badge_new p hp
  · rcases hrest p hp with rfl | hp
    · rw [hsource']
      exact sorted_single c _
    · exact h.sorted_new p hp
  · have htrail := h.trail_iff
    rw [hlast] at htrail
    rw [trail_of_char hedges hne]
    simp only [htrail, exists_eq_right]

/-- Spelling a text makes it the one text between `source` and the last state. -/
theorem spelled_spell (source : Nat) (text : List Char) (hsource : source < nfa.states.size)
    (hbare : nfa.state source = {}) (hne : source ≠ nfa.last) (hlast : nfa.last < nfa.states.size)
    (hend : ∀ l q, ¬nfa.Edge nfa.last l q) : Spelled nfa (nfa.spell source text) source text := by
  fun_induction spell nfa source text with
  | case1 nfa source => exact spelled_nil hsource hbare hne hend
  | case2 nfa source c => exact spelled_char hsource hbare hne hend c
  | case3 nfa source c d rest fresh grown ih =>
    have hgrown : ∀ p, grown.state p = nfa.state p := state_push_empty rfl
    have hgrownSize : grown.states.size = nfa.states.size + 1 := Array.size_push _
    set stepped := grown.modify source fun s =>
      { s with trans := s.trans ++ [⟨CharRange.single c, fresh⟩] } with hstepped
    have hsize : stepped.states.size = nfa.states.size + 1 := (size_modify _ _).trans hgrownSize
    have hat : stepped.state source = { trans := [⟨CharRange.single c, fresh⟩] } := by
      rw [hstepped, state_modify_self (by omega), hgrown, hbare]
      rfl
    have hother : ∀ p, p ≠ source → stepped.state p = nfa.state p := by
      intro p hp
      rw [hstepped, state_modify_of_ne _ hp, hgrown]
    have hfresh : stepped.state fresh = {} :=
      (hother fresh hsource.ne').trans (state_of_size_le (Nat.le_refl _))
    have hend' : ∀ l q, ¬stepped.Edge stepped.last l q := by
      intro l q
      show ¬(stepped.state nfa.last).Edge l q
      rw [hother _ hne.symm]
      exact hend l q
    have hspelled := ih (hsize ▸ Nat.lt_succ_self _) hfresh hlast.ne'
      (hsize ▸ Nat.lt_succ_of_lt hlast) hend'
    exact hspelled.cons hsource hne hsize rfl rfl hat hother

section Literal

variable {s : String}

theorem spelled_literal (config : Config) (s : String) :
    Spelled (empty config) (literal config s) 0 s.toList :=
  spelled_spell 0 s.toList Nat.zero_lt_two (state_empty config 0) Nat.zero_ne_one Nat.one_lt_two
    fun _ _ => no_edge_empty

/-- The only old state that spelling leaves alone is the last one. -/
theorem state_literal_last (config : Config) (s : String) : (literal config s).state 1 = {} := by
  rw [(spelled_literal config s).state_eq 1 Nat.one_lt_two Nat.one_ne_zero, state_empty]

theorem nextGroup_spell (nfa : Nfa) (source : Nat) (text : List Char) :
    (nfa.spell source text).nextGroup = nfa.nextGroup := by
  induction text generalizing nfa source with
  | nil => rfl
  | cons c rest ih =>
    cases rest with
    | nil => rfl
    | cons d rest => exact ih _ _

@[simp] theorem nextGroup_literal (config : Config) (s : String) : (literal config s).nextGroup = 0 :=
  nextGroup_spell _ _ _

theorem config_spell (nfa : Nfa) (source : Nat) (text : List Char) :
    (nfa.spell source text).config = nfa.config := by
  induction text generalizing nfa source with
  | nil => rfl
  | cons c rest ih =>
    cases rest with
    | nil => rfl
    | cons d rest => exact ih _ _

@[simp] theorem config_literal (config : Config) (s : String) : (literal config s).config = config :=
  config_spell _ _ _

/-- Spelling a text of some characters adds no silent edge. -/
theorem eps_spell (nfa : Nfa) (source : Nat) {text : List Char} (h : text ≠ []) (p : Nat) :
    ((nfa.spell source text).state p).eps = (nfa.state p).eps := by
  have hmodify : ∀ (nfa : Nfa) (q : Nat) (t : Transition),
      ((nfa.modify q fun s => { s with trans := s.trans ++ [t] }).state p).eps =
        (nfa.state p).eps := by
    intro nfa q t
    rw [state_modify]
    split <;> rfl
  fun_induction spell nfa source text with
  | case1 => exact absurd rfl h
  | case2 nfa source c => exact hmodify nfa source _
  | case3 nfa source c d rest fresh grown ih =>
    have hgrown : grown.state p = nfa.state p := state_push_empty rfl p
    rw [ih (List.cons_ne_nil d rest), hmodify, hgrown]

theorem blank_literal (config : Config) (s : String) : (literal config s).Blank := by
  intro p
  by_cases hp : p = 1
  · rw [hp, state_literal_last]
    rfl
  · exact (spelled_literal config s).badge_new p (show p = 0 ∨ 2 ≤ p by omega)

theorem silent_literal (config : Config) (s : String) : (literal config s).Silent :=
  (blank_literal config s).silent

theorem wellFormed_literal (config : Config) (s : String) : (literal config s).WellFormed := by
  have h := spelled_literal config s
  have hsize : 2 ≤ (literal config s).states.size := h.size_le
  have hedge : ∀ p l q, (literal config s).Edge p l q →
      p ≠ 1 ∧ (q = 1 ∨ 2 ≤ q ∧ q < (literal config s).states.size) := by
    intro p l q e
    by_cases hp : p = 1
    · rw [hp, Edge, state_literal_last] at e
      exact absurd e (State.edge_of_targets_nil rfl)
    · exact ⟨hp, h.edge_new p l q (show p = 0 ∨ 2 ≤ p by omega) e⟩
  have hstart : (literal config s).start = 0 := h.start_eq
  have hlast : (literal config s).last = 1 := h.last_eq
  refine ⟨by omega, by omega, by omega, fun p l q e => ?_, fun p l e => ?_, fun l q e => ?_,
    silent_literal config s _, fun p => ?_⟩
  · have := hedge p l q e
    omega
  · have := hedge p l _ e
    omega
  · exact (hedge _ l q e).1 hlast
  · by_cases hp : p = 1
    · rw [hp, state_literal_last]
      exact Transition.sorted_nil
    · exact h.sorted_new p (show p = 0 ∨ 2 ≤ p by omega)

theorem mem_language_literal : w ∈ (literal config s).language ↔ w = s.toList := by
  have h := spelled_literal config s
  rw [mem_language, h.start_eq, h.last_eq]
  exact h.trail_iff w

theorem mem_actions_literal_addAction {a b : ActionId} :
    b ∈ ((literal config s).addAction a).actions w ↔ b = a ∧ w = s.toList := by
  rw [(silent_literal config s).actions_addAction (wellFormed_literal config s)]
  exact and_congr_right fun _ => mem_language_literal

end Literal

end Nfa

end LongestMatch
