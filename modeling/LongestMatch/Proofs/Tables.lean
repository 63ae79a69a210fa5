import LongestMatch.Proofs.Ranges
import LongestMatch.Table

/-!
# Lookup in transition tables

However a sorted list of transitions is stored, looking a character up gives the target of the entry
that contains it (`get_build`). Which form is chosen is a matter of `Config.prefersDense`, of which
nothing is assumed.
-/

namespace LongestMatch

open Transition (Leads Sorted)

namespace Table

/-! ## Entries in order -/

section Order

variable {ts : List Transition} (h : Sorted ts) {i j : Nat} {t u : Transition}

include h

theorem getElem?_lt_of_sorted (hij : i < j) (ht : ts[i]? = some t) (hu : ts[j]? = some u) :
    t.hi.toNat < u.lo.toNat := by
  obtain ⟨hi, rfl⟩ := List.getElem?_eq_some_iff.1 ht
  obtain ⟨hj, rfl⟩ := List.getElem?_eq_some_iff.1 hu
  exact List.pairwise_iff_getElem.1 h.pairwise i j hi hj hij

theorem lo_le_hi_of_getElem? (ht : ts[i]? = some t) : t.lo.toNat ≤ t.hi.toNat :=
  h.lo_le_hi t (List.mem_of_getElem? ht)

theorem hi_le_of_sorted (hij : i ≤ j) (ht : ts[i]? = some t) (hu : ts[j]? = some u) :
    t.hi.toNat ≤ u.hi.toNat := by
  rcases Nat.lt_or_eq_of_le hij with hlt | rfl
  · have := getElem?_lt_of_sorted h hlt ht hu
    have := lo_le_hi_of_getElem? h hu
    omega
  · rw [ht] at hu
    cases hu
    exact Nat.le_refl _

theorem lo_le_of_sorted (hij : i ≤ j) (ht : ts[i]? = some t) (hu : ts[j]? = some u) :
    t.lo.toNat ≤ u.lo.toNat := by
  rcases Nat.lt_or_eq_of_le hij with hlt | rfl
  · have := getElem?_lt_of_sorted h hlt ht hu
    have := lo_le_hi_of_getElem? h ht
    omega
  · rw [ht] at hu
    cases hu
    exact Nat.le_refl _

/-- Past an entry that ends before it, a character can only be in a later one. -/
theorem lt_of_hi_lt {c : Char} (ht : ts[i]? = some t) (hlt : t.hi.toNat < c.toNat)
    (hu : ts[j]? = some u) (huc : u.contains c = true) : i < j := by
  by_contra hle
  rw [CharRange.contains_iff] at huc
  have := hi_le_of_sorted h (by omega) hu ht
  omega

theorem lt_of_lt_lo {c : Char} (ht : ts[i]? = some t) (hlt : c.toNat < t.lo.toNat)
    (hu : ts[j]? = some u) (huc : u.contains c = true) : j < i := by
  by_contra hge
  rw [CharRange.contains_iff] at huc
  have := lo_le_of_sorted h (by omega) ht hu
  omega

end Order

/-! ## Binary search -/

/-- The search finds what lies between its bounds. -/
theorem searchFrom_eq_some {entries : Array Transition} (h : Sorted entries.toList) {c : Char}
    {q lo hi : Nat} (hhi : hi ≤ entries.size) :
    searchFrom entries c lo hi = some q ↔
      ∃ i t, lo ≤ i ∧ i < hi ∧ entries[i]? = some t ∧ t.contains c = true ∧ t.target = q := by
  fun_induction searchFrom entries c lo hi with
  | case1 lo hi hlt middle hnone =>
    rw [Array.getElem?_eq_none_iff] at hnone
    omega
  | case2 lo hi hlt middle t ht hafter ih =>
    -- the entries up to the middle one end before the character
    rw [Char.lt_iff_toNat] at hafter
    refine (ih hhi).trans ⟨?_, ?_⟩
    · intro h'
      obtain ⟨i, u, hlo, rest⟩ := h'
      exact ⟨i, u, by omega, rest⟩
    · intro h'
      obtain ⟨i, u, hlo, hi', hu, huc, hq⟩ := h'
      rw [← Array.getElem?_toList] at ht
      exact ⟨i, u, lt_of_hi_lt h ht hafter (Array.getElem?_toList ▸ hu) huc, hi', hu, huc, hq⟩
  | case3 lo hi hlt middle t ht hnot hbefore ih =>
    -- the entries from the middle one on begin after the character
    rw [Char.lt_iff_toNat] at hbefore
    refine (ih (by omega)).trans ⟨?_, ?_⟩
    · intro h'
      obtain ⟨i, u, hlo, hi', rest⟩ := h'
      exact ⟨i, u, hlo, by omega, rest⟩
    · intro h'
      obtain ⟨i, u, hlo, hi', hu, huc, hq⟩ := h'
      rw [← Array.getElem?_toList] at ht
      exact ⟨i, u, hlo, lt_of_lt_lo h ht hbefore (Array.getElem?_toList ▸ hu) huc, hu, huc, hq⟩
  | case4 lo hi hlt middle t ht hnot hnot' =>
    -- the middle entry is around the character, and no other is
    rw [Char.lt_iff_toNat] at hnot hnot'
    have htc : t.contains c = true := CharRange.contains_iff.2 ⟨by omega, by omega⟩
    constructor
    · intro heq
      exact ⟨middle, t, by omega, by omega, ht, htc, Option.some.inj heq⟩
    · intro h'
      obtain ⟨i, u, hlo, hi', hu, huc, rfl⟩ := h'
      have hmem := Array.mem_toList_iff.2 (Array.mem_of_getElem? ht)
      have hmem' := Array.mem_toList_iff.2 (Array.mem_of_getElem? hu)
      rw [h.eq_of_contains hmem hmem' htc huc]
  | case5 lo hi hlt =>
    constructor
    · intro hnone
      cases hnone
    · intro h'
      obtain ⟨i, -, hlo, hi', -⟩ := h'
      omega

theorem get_sparse {ts : List Transition} (h : Sorted ts) {c : Char} {q : Nat} :
    (sparse ts.toArray).get c = some q ↔ Leads ts c q := by
  rw [get, searchFrom_eq_some (by simpa using h) (Nat.le_refl _)]
  constructor
  · intro h'
    obtain ⟨i, t, -, -, ht, htc, hq⟩ := h'
    exact ⟨t, by simpa using Array.mem_of_getElem? ht, htc, hq⟩
  · intro h'
    obtain ⟨t, ht, htc, hq⟩ := h'
    obtain ⟨i, hi, hget⟩ := List.getElem_of_mem ht
    exact ⟨i, t, Nat.zero_le i, by simpa using hi, by simp [hi, hget], htc, hq⟩

/-! ## Slots -/

theorem size_fill (slots : Array (Option Nat)) (i : Nat) (value : Option Nat) (count : Nat) :
    (fill slots i value count).size = slots.size := by
  induction count generalizing slots i with
  | zero => rfl
  | succ count ih => rw [fill, ih, Array.size_setIfInBounds]

theorem getD_fill (slots : Array (Option Nat)) (i : Nat) (value : Option Nat) (count j : Nat)
    (hj : j < slots.size) :
    (fill slots i value count).getD j none =
      if i ≤ j ∧ j < i + count then value else slots.getD j none := by
  induction count generalizing slots i with
  | zero =>
    rw [fill, if_neg (by omega)]
  | succ count ih =>
    rw [fill, ih _ _ (by simpa using hj)]
    by_cases heq : i = j
    · subst heq
      rw [if_neg (by omega), if_pos (by omega)]
      simp [Array.getD_eq_getD_getElem?, hj]
    · have hsame : (slots.setIfInBounds i value).getD j none = slots.getD j none := by
        simp [Array.getD_eq_getD_getElem?, heq]
      rw [hsame]
      exact if_congr (by omega) rfl rfl

theorem size_slotsOf (first span : Nat) (ts : List Transition) :
    (slotsOf first span ts).size = span := by
  have hfold : ∀ slots : Array (Option Nat), (ts.foldl (fun slots t =>
      fill slots (t.lo.toNat - first) (some t.target) (t.hi.toNat + 1 - t.lo.toNat)) slots).size =
      slots.size := by
    induction ts with
    | nil => exact fun _ => rfl
    | cons t ts ih => exact fun slots => (ih _).trans (size_fill ..)
  exact (hfold _).trans Array.size_replicate

section Slots

variable {first : Nat} {c : Char} {q : Nat} (hc : first ≤ c.toNat)

include hc

/-- Filling in a transition changes the slots of the characters that it contains. -/
theorem getD_fill_transition {slots : Array (Option Nat)} {t : Transition}
    (hlo : first ≤ t.lo.toNat) (hhi : t.hi.toNat < first + slots.size)
    (hproper : t.lo.toNat ≤ t.hi.toNat) :
    (fill slots (t.lo.toNat - first) (some t.target) (t.hi.toNat + 1 - t.lo.toNat)).getD
        (c.toNat - first) none =
      if t.contains c = true then some t.target else slots.getD (c.toNat - first) none := by
  by_cases hin : t.contains c = true
  · rw [if_pos hin]
    rw [CharRange.contains_iff] at hin
    rw [getD_fill _ _ _ _ _ (by omega), if_pos (by omega)]
  · rw [if_neg hin]
    rw [CharRange.contains_iff] at hin
    by_cases hj : c.toNat - first < slots.size
    · rw [getD_fill _ _ _ _ _ hj, if_neg (by omega)]
    · rw [Array.getD_eq_getD_getElem?, Array.getD_eq_getD_getElem?,
        Array.getElem?_eq_none (by rw [size_fill]; omega), Array.getElem?_eq_none (by omega)]

theorem getD_foldl_fill {ts : List Transition} (h : Sorted ts) {slots : Array (Option Nat)}
    (hlo : ∀ t ∈ ts, first ≤ t.lo.toNat) (hhi : ∀ t ∈ ts, t.hi.toNat < first + slots.size) :
    (ts.foldl (fun slots t =>
        fill slots (t.lo.toNat - first) (some t.target) (t.hi.toNat + 1 - t.lo.toNat)) slots).getD
          (c.toNat - first) none = some q ↔
      Leads ts c q ∨ slots.getD (c.toNat - first) none = some q ∧ ∀ p, ¬Leads ts c p := by
  induction ts generalizing slots with
  | nil => simp [Transition.leads_nil]
  | cons t ts ih =>
    obtain ⟨htlo, hlo⟩ := List.forall_mem_cons.1 hlo
    obtain ⟨hthi, hhi⟩ := List.forall_mem_cons.1 hhi
    have hproper := h.lo_le_hi t List.mem_cons_self
    rw [List.foldl_cons, ih h.tail hlo (by rwa [size_fill]),
      getD_fill_transition hc htlo hthi hproper, Transition.leads_cons]
    by_cases htc : t.contains c = true
    · -- no later entry contains the character too
      have hnone : ∀ p, ¬Leads ts c p := by
        intro p hp
        obtain ⟨u, hu, huc, -⟩ := hp
        have := (List.pairwise_cons.1 h.pairwise).1 u hu
        rw [CharRange.contains_iff] at htc huc
        omega
      simp [htc, hnone, Transition.leads_cons]
    · simp [htc, Transition.leads_cons]

/-- The slot of a character holds its target, if the slots go from the first entry to the last. -/
theorem getD_slotsOf {ts : List Transition} (h : Sorted ts) {span : Nat}
    (hlo : ∀ t ∈ ts, first ≤ t.lo.toNat) (hhi : ∀ t ∈ ts, t.hi.toNat < first + span) :
    (slotsOf first span ts).getD (c.toNat - first) none = some q ↔ Leads ts c q := by
  have hvacant : (Array.replicate span (none : Option Nat)).getD (c.toNat - first) none = none := by
    rw [Array.getD_eq_getD_getElem?, Array.getElem?_replicate]
    split <;> rfl
  rw [slotsOf, getD_foldl_fill hc h hlo (by rwa [Array.size_replicate]), hvacant]
  simp

end Slots

/-! ## All forms -/

section Forms

variable {t u : Transition} {rest : List Transition} {c : Char} {q : Nat}

theorem getElem?_getLastD (t u : Transition) (rest : List Transition) :
    (t :: u :: rest)[rest.length + 1]? = some (rest.getLastD u) := by
  have hlast : (u :: rest).getLast? = (u :: rest)[rest.length]? := List.getLast?_eq_getElem?
  rw [List.getElem?_cons_succ, ← hlast, List.getLast?_cons, List.getLastD_eq_getLast?]

/-- The slots of a dense table go from the first entry to the last. -/
theorem get_dense (h : Sorted (t :: u :: rest)) :
    (dense t.lo.toNat (slotsOf t.lo.toNat ((rest.getLastD u).hi.toNat - t.lo.toNat + 1)
      (t :: u :: rest))).get c = some q ↔ Leads (t :: u :: rest) c q := by
  have hlo : ∀ v ∈ t :: u :: rest, t.lo.toNat ≤ v.lo.toNat := by
    intro v hv
    obtain ⟨i, hi⟩ := List.mem_iff_getElem?.1 hv
    exact lo_le_of_sorted h (Nat.zero_le i) List.getElem?_cons_zero hi
  have hhi : ∀ v ∈ t :: u :: rest, v.hi.toNat ≤ (rest.getLastD u).hi.toNat := by
    intro v hv
    obtain ⟨i, hi⟩ := List.mem_iff_getElem?.1 hv
    have hlt := (List.getElem?_eq_some_iff.1 hi).1
    exact hi_le_of_sorted h (Nat.le_of_lt_succ hlt) hi (getElem?_getLastD t u rest)
  rw [get]
  split
  · next hle =>
    apply getD_slotsOf hle h hlo
    intro v hv
    have := hhi v hv
    have := hlo v hv
    have := h.lo_le_hi v hv
    omega
  · next hgt =>
    constructor
    · intro hnone
      cases hnone
    · intro hlead
      obtain ⟨v, hv, hvc, -⟩ := hlead
      have := hlo v hv
      rw [CharRange.contains_iff] at hvc
      omega

theorem get_empty : (empty).get c = some q ↔ Leads [] c q := by
  simp [get, Transition.leads_nil]

/-- The form of a single entry, of one character or of several. -/
theorem get_single : (if t.lo = t.hi then single t.lo t.target else range t).get c = some q ↔
    Leads [t] c q := by
  have hone : Leads [t] c q ↔ t.contains c = true ∧ t.target = q := by
    simp [Transition.leads_cons, Transition.leads_nil]
  rw [hone]
  split
  · next heq =>
    have : t.contains c = true ↔ t.lo = c := by
      rw [CharRange.contains_iff, ← heq, ← Char.toNat_inj]
      omega
    simp [get, this]
  · simp [get]

/-- Looking a character up gives the target of the entry that contains it. -/
theorem get_build (config : Config) {ts : List Transition} (h : Sorted ts) :
    (build config ts).get c = some q ↔ Leads ts c q := by
  unfold build
  split
  · exact get_empty
  · exact get_single
  · next t u rest =>
    simp only
    split
    · exact get_dense h
    · exact get_sparse h

end Forms

end Table

end LongestMatch
