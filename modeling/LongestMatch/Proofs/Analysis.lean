import LongestMatch.Dfa.Match

/-!
# Where there is nothing to be read off

Without markers there are no spans. So it makes no difference whether an analysis is left out where
no state has markers: it is the walk over the markers met, up to the cut-off
(`Dfa.analyze_eq`), and for a match the cut-off leaves the positions of the match
(`Dfa.spansOf_eq`).
-/

namespace LongestMatch

theorem Span.ofTrail_of_forall_nil {way : List (Nat × List Marker)} (h : ∀ p ∈ way, p.2 = []) :
    Span.ofTrail [] way = [] := by
  induction way with
  | nil => rfl
  | cons p way ih =>
    obtain ⟨hp, hway⟩ := List.forall_mem_cons.1 h
    rw [ofTrail, hp, step]
    exact ih hway

namespace Dfa

variable {dfa : Dfa} {a : ActionId} {i : Nat} {positions : List (Nat × Nat)} {count : Nat}

theorem hasGroups_iff : dfa.hasGroups = true ↔ ∃ i, (dfa.state i).marks.isEmpty = false := by
  rw [hasGroups, Array.any_eq_true]
  simp only [state, Array.getD_eq_getD_getElem?, Bool.not_eq_true']
  constructor
  · rintro ⟨i, hi, hempty⟩
    exact ⟨i, by rwa [Array.getElem?_eq_getElem hi, Option.getD_some]⟩
  · rintro ⟨i, hempty⟩
    by_cases hi : i < dfa.states.size
    · rw [Array.getElem?_eq_getElem hi, Option.getD_some] at hempty
      exact ⟨i, hi, hempty⟩
    · -- beyond the states there are no markers
      rw [Array.getElem?_eq_none (Nat.le_of_not_lt hi)] at hempty
      cases hempty

theorem markersFor_of_isEmpty (h : (dfa.state i).marks.isEmpty = true) :
    dfa.markersFor i a = [] := by
  have hnone : ∀ owner, (dfa.state i).marks.markers? owner = none := by
    intro owner
    rw [Marks.markers?, List.isEmpty_iff.1 h]
    rfl
  rw [markersFor]
  simp only [hnone, Option.getD_none]
  induction dfa.catalog.parts a with
  | nil => rfl
  | cons part parts ih => exact ih

theorem markersMet_eq_nil (h : ∀ p ∈ positions, (dfa.state p.1).marks.isEmpty = true) :
    ∀ p ∈ dfa.markersMet a positions, p.2 = [] := by
  intro p hp
  obtain ⟨q, hq, rfl⟩ := List.mem_map.1 hp
  exact markersFor_of_isEmpty (h q hq)

/-- Leaving out an analysis without markers makes no difference. -/
theorem analyze_eq : dfa.analyze a positions count =
    Span.ofTrail [] (dfa.markersMet a (positions.take count)) := by
  unfold analyze
  simp only
  split
  · next h => exact (Span.ofTrail_of_forall_nil (markersMet_eq_nil (List.all_eq_true.1 h))).symm
  · rfl

theorem spansOf_eq_analyze {start length : Nat} {read : List Char} {states : List Nat} :
    dfa.spansOf a start read states length =
      dfa.analyze a (states.zip (offsets start read)) (length + 1) := by
  unfold spansOf
  split
  · rfl
  · next h =>
    have hempty : ∀ i, (dfa.state i).marks.isEmpty = true := by
      intro i
      cases hi : (dfa.state i).marks.isEmpty with
      | true => rfl
      | false => exact absurd (hasGroups_iff.2 ⟨i, hi⟩) h
    rw [analyze_eq, Span.ofTrail_of_forall_nil (markersMet_eq_nil fun p _ => hempty p.1)]

/-! ## The way of a match -/

theorem length_offsets (start : Nat) (w : List Char) : (offsets start w).length = w.length + 1 := by
  induction w generalizing start with
  | nil => rfl
  | cons c w ih => exact congrArg (· + 1) (ih _)

theorem take_offsets (start : Nat) (w : List Char) (n : Nat) :
    (offsets start w).take (n + 1) = offsets start (w.take n) := by
  induction w generalizing start n with
  | nil => rw [List.take_nil, List.take_of_length_le (Nat.le_add_left 1 n)]
  | cons c w ih =>
    cases n with
    | zero => rfl
    | succ n => rw [offsets, List.take_succ_cons, ih, List.take_succ_cons, offsets]

theorem take_zip (n : Nat) (is offsets : List Nat) :
    (is.zip offsets).take n = is.zip (offsets.take n) := by
  induction n generalizing is offsets with
  | zero => rw [List.take_zero, List.take_zero, List.zip_nil_right]
  | succ n ih =>
    cases is with
    | nil => rfl
    | cons i is =>
      cases offsets with
      | nil => rfl
      | cons offset offsets =>
        rw [List.zip_cons_cons, List.take_succ_cons, List.take_succ_cons, List.zip_cons_cons, ih]

/-- The positions of a match, with the markers of the states that are passed through. -/
def wayOf (dfa : Dfa) (a : ActionId) (start : Nat) (w : List Char) (states : List Nat) :
    List (Nat × List Marker) :=
  dfa.markersMet a (states.zip (offsets start w))

/-- Up to the cut-off there are the positions of the match. -/
theorem spansOf_eq {start length : Nat} {read : List Char} {states : List Nat} :
    dfa.spansOf a start read states length =
      Span.ofTrail [] (dfa.wayOf a start (read.take length) states) := by
  rw [spansOf_eq_analyze, analyze_eq, wayOf, ← take_offsets, take_zip]

end Dfa

end LongestMatch
