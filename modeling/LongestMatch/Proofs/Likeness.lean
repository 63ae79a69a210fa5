import LongestMatch.Proofs.Badges
import LongestMatch.Proofs.Longest
import LongestMatch.Proofs.Priorities
import LongestMatch.Proofs.Tracks

/-!
# Automata that no match tells apart

Two automata are alike if each text leads both to the same actions and, for each action, to the same
roles of its groups (`Nfa.Alike`). How many states they have for that, how these are numbered and
which of them the text leads to is left open.

If the verdicts about the actions follow from the priorities, this is all that counts: alike
automata compile or fail together (`Alike.exists_compile`), and then a match of one is a match of the
other, with the same spans (`Alike.matchLimited_eq`).
-/

namespace LongestMatch

/-- For an action, a group has a role. -/
def Badge.Marks (a : ActionId) (group : Nat) (role : Role) (b : Badge) : Prop :=
  b.2.Has (some a) group role

theorem Badge.not_marks_blank (a : ActionId) (group : Nat) (role : Role) :
    ¬Marks a group role blank :=
  Marks.not_has_empty

/-! ## Compiled automata with the same actions -/

namespace Dfa

variable {dfa other : Dfa} {src : Source} {limit : Option Nat} {a : ActionId} {w : List Char}
  {start : Nat} {states states' : List Nat}

/-- Without a match there are no spans. -/
theorem spans_eq_nil (out : String)
    (h : ∀ a, (dfa.matchLimited limit src out).result ≠ .ok (.matched a)) :
    (dfa.matchLimited limit src out).spans = [] := by
  unfold matchLimited at h ⊢
  split
  · rfl
  · rfl
  · next hscan =>
    rw [hscan] at h
    simp only at h ⊢
    split
    · rfl
    · next best hbest =>
      rw [hbest] at h
      exact absurd rfl (h best.action)

/-- What is met is the same, whatever the states are. -/
theorem wayOf_congr (hlt : w.length < states.length) (hlt' : w.length < states'.length)
    (h : ∀ k ≤ w.length, ∀ i j, states[k]? = some i → states'[k]? = some j →
      dfa.markersFor i a = other.markersFor j a) :
    dfa.wayOf a start w states = other.wayOf a start w states' := by
  have hlength : (dfa.wayOf a start w states).length = w.length + 1 := length_wayOf hlt
  have hlength' : (other.wayOf a start w states').length = w.length + 1 := length_wayOf hlt'
  apply List.ext_getElem (hlength.trans hlength'.symm)
  intro k hk hk'
  obtain ⟨hle, hoffset, i, hi, hmarkers⟩ := getElem?_wayOf (List.getElem?_eq_getElem hk)
  obtain ⟨-, hoffset', j, hj, hmarkers'⟩ := getElem?_wayOf (List.getElem?_eq_getElem hk')
  apply Prod.ext
  · rw [hoffset, hoffset']
  · rw [hmarkers, hmarkers', h k hle i j hi hj]

section Actions

variable (h : ∀ w, dfa.actionFrom 0 w = other.actionFrom 0 w)

include h

theorem find?_congr (text : String) : dfa.find? text = other.find? text := by
  apply Option.ext
  rintro ⟨a, n⟩
  simp only [find?_eq_some_iff, longestPrefix_congr h]

/-- On a source whose reads do not fail the outcome is the same, and so are the characters taken. -/
theorem result_added_congr (hsrc : src.Reliable) (limit : Option Nat) (out : String) :
    (dfa.matchLimited limit src out).result = (other.matchLimited limit src out).result ∧
      (dfa.matchLimited limit src out).added = (other.matchLimited limit src out).added := by
  by_cases hnil : limit ≠ some 0 ∧ src.remaining = []
  · rw [matchLimited_of_remaining_nil hsrc hnil.1 hnil.2,
      matchLimited_of_remaining_nil hsrc hnil.1 hnil.2]
    exact ⟨rfl, rfl⟩
  · have hgo : limit = some 0 ∨ src.remaining ≠ [] := by
      rwa [not_and_or, not_not] at hnil
    by_cases hlongest : ∃ k a, dfa.LongestPrefix limit src.remaining k a
    · obtain ⟨k, a, hk⟩ := hlongest
      have hk' := (longestPrefix_congr h).1 hk
      rw [(matchLimited_of_longestPrefix hsrc hgo hk out).1,
        (matchLimited_of_longestPrefix hsrc hgo hk' out).1, added_of_longestPrefix hsrc hgo hk,
        added_of_longestPrefix hsrc hgo hk']
      exact ⟨rfl, rfl⟩
    · have hno : ∀ k a, ¬dfa.LongestPrefix limit src.remaining k a :=
        fun k a hk => hlongest ⟨k, a, hk⟩
      have hno' : ∀ k a, ¬other.LongestPrefix limit src.remaining k a :=
        fun k a hk => hno k a ((longestPrefix_congr h).2 hk)
      obtain ⟨hresult, -, hremaining⟩ := matchLimited_of_not_longestPrefix hsrc hgo hno out
      obtain ⟨hresult', -, hremaining'⟩ := matchLimited_of_not_longestPrefix hsrc hgo hno' out
      have hadded := dfa.added_matchLimited limit src out
      have hadded' := other.added_matchLimited limit src out
      rw [hremaining] at hadded
      rw [hremaining'] at hadded'
      rw [hresult, hresult', List.append_left_eq_self.1 hadded, List.append_left_eq_self.1 hadded']
      exact ⟨rfl, rfl⟩

end Actions

end Dfa

/-! ## Automata under construction -/

namespace Nfa

variable {nfa other : Nfa} {dfa dfa' : Dfa} {catalog : Catalog}
  {failPolicy failPolicy' : FailPolicy} {eofAction eofAction' : Option ActionId} {w : List Char}
  {a : ActionId} {i j : Nat}

/-- Each text leads to the same actions, and to the same roles of their groups. -/
structure Alike (nfa other : Nfa) : Prop where
  acts_iff : ∀ a w,
    nfa.Sees (Badge.Acts a) nfa.start w ↔ other.Sees (Badge.Acts a) other.start w
  marks_iff : ∀ a group role w, nfa.Sees (Badge.Marks a group role) nfa.start w ↔
    other.Sees (Badge.Marks a group role) other.start w

section Alike

variable (h : nfa.Alike other)

include h

theorem Alike.actions_eq (w : List Char) : nfa.actions w = other.actions w := by
  ext a
  exact h.acts_iff a w

section Compiled

variable (hn : nfa.Built) (ho : other.Built)

include hn ho

theorem Alike.markersFor_eq (hdfa : dfa.states = nfa.subsetStates catalog)
    (hdfa' : dfa'.states = other.subsetStates catalog) (hcatalog : dfa.catalog = dfa'.catalog)
    (t : Trail dfa.Edge 0 w i) (t' : Trail dfa'.Edge 0 w j) :
    dfa.markersFor i a = dfa'.markersFor j a := by
  have hsound := sound_marks_of_trail hdfa t fun p _ => hn.sound p
  have hsound' := sound_marks_of_trail hdfa' t' fun p _ => ho.sound p
  have hhas : ∀ b group role, (dfa.state i).marks.Has (some b) group role ↔
      (dfa'.state j).marks.Has (some b) group role := by
    intro b group role
    rw [has_marks_of_trail hdfa t, has_marks_of_trail hdfa' t']
    exact h.marks_iff b group role w
  apply (Dfa.ordered_markersFor (inOrder_marks_of_trail hdfa t)).eq_of_roles
    (Dfa.ordered_markersFor (inOrder_marks_of_trail hdfa' t')) (Dfa.proper_markersFor hsound)
    (Dfa.proper_markersFor hsound')
  intro group role
  simp only [Dfa.says_markersFor hsound, Dfa.says_markersFor hsound', hhas, hcatalog]

variable (hmerge : ∀ w, catalog.MergesByPriorityAmong (nfa.actions w))

include hmerge

omit hn ho in
/-- They compile or fail together. -/
theorem Alike.exists_compile : (∃ dfa, nfa.compile catalog failPolicy eofAction = .ok dfa) ↔
    ∃ dfa, other.compile catalog failPolicy' eofAction' = .ok dfa := by
  rw [exists_compile_iff, exists_compile_iff]
  apply not_congr
  apply exists_congr
  intro w
  exact not_congr (resolution_of_actions_eq (hmerge w) (h.actions_eq w)).1

variable (hdfa : nfa.compile catalog failPolicy eofAction = .ok dfa)
  (hdfa' : other.compile catalog failPolicy' eofAction' = .ok dfa')

include hdfa hdfa'

omit hn ho in
theorem Alike.actionFrom_eq (w : List Char) : dfa.actionFrom 0 w = dfa'.actionFrom 0 w := by
  have hclean : (nfa.resolution catalog w).clashes = [] := by
    by_contra hne
    exact exists_compile_iff.1 ⟨dfa, hdfa⟩ ⟨w, hne⟩
  rw [actionFrom_compile hdfa, actionFrom_compile hdfa',
    (resolution_of_actions_eq (hmerge w) (h.actions_eq w)).2 hclean]

/-- A match of one is a match of the other, with the same spans. -/
theorem Alike.matchLimited_eq {src : Source} (hsrc : src.Reliable) (limit : Option Nat)
    (out : String) :
    (dfa.matchLimited limit src out).result = (dfa'.matchLimited limit src out).result ∧
      (dfa.matchLimited limit src out).added = (dfa'.matchLimited limit src out).added ∧
      (dfa.matchLimited limit src out).spans = (dfa'.matchLimited limit src out).spans := by
  obtain ⟨hresult, hadded⟩ :=
    Dfa.result_added_congr (h.actionFrom_eq hmerge hdfa hdfa') hsrc limit out
  refine ⟨hresult, hadded, ?_⟩
  by_cases hmatch : ∃ a, (dfa.matchLimited limit src out).result = .ok (.matched a)
  · obtain ⟨a, ha⟩ := hmatch
    obtain ⟨states, hspans, hlt, htrail, haction⟩ := Dfa.exists_states_of_match ha
    obtain ⟨states', hspans', hlt', htrail', haction'⟩ :=
      Dfa.exists_states_of_match (hresult.symm.trans ha)
    rw [← hadded] at hspans' hlt' htrail' haction'
    rw [hspans, hspans']
    congr 1
    apply Dfa.wayOf_congr hlt hlt'
    intro k hk i j hi hj
    have hcatalog : dfa.catalog = dfa'.catalog := by
      rw [catalog_of_compile hdfa, catalog_of_compile hdfa']
    exact h.markersFor_eq hn ho (states_of_compile hdfa haction) (states_of_compile hdfa' haction')
      hcatalog (htrail k hk i hi) (htrail' k hk j hj)
  · have hno : ∀ a, (dfa.matchLimited limit src out).result ≠ .ok (.matched a) :=
      fun a ha => hmatch ⟨a, ha⟩
    rw [Dfa.spans_eq_nil out hno, Dfa.spans_eq_nil out fun a => hresult ▸ hno a]

end Compiled

end Alike

end Nfa

end LongestMatch
