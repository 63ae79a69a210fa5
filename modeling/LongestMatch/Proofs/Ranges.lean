import LongestMatch.CharRange
import Mathlib.Data.List.Basic

/-!
# Sorted lists of transitions

Characters are compared through their code points, so that statements about ranges end as linear
arithmetic. A list of transitions is read as a relation (`Transition.Leads`): a character leads to a
target if some entry with that target contains it.

* `CharRange.contains_of_ofCodes?`, `CharRange.not_between_of_ofCodes?` — clamping a range of code
  points to characters neither loses nor adds a character, whatever part of it are surrogates.
* `Transition.leads_join`, `Transition.sorted_join` — joining neighbours keeps the relation, and the
  order of a sorted list.
-/

namespace LongestMatch

/-! ## Characters and code points -/

theorem Char.le_iff_toNat (a b : Char) : a ≤ b ↔ a.toNat ≤ b.toNat :=
  Iff.rfl

theorem Char.lt_iff_toNat (a b : Char) : a < b ↔ a.toNat < b.toNat :=
  Iff.rfl

theorem Char.toNat_le_maxCode (c : Char) : c.toNat ≤ maxCode := by
  have h : c.toNat.isValidChar := c.valid
  unfold maxCode
  omega

/-- Where each range ends before the later ones begin, a number is in one of them at most. -/
theorem eq_of_between {β : Type} {ranges : List β} {lo hi : β → Nat}
    (h : ranges.Pairwise fun s t => hi s < lo t) {s t : β} (hs : s ∈ ranges) (ht : t ∈ ranges)
    {k : Nat} (hks : lo s ≤ k ∧ k ≤ hi s) (hkt : lo t ≤ k ∧ k ≤ hi t) : s = t := by
  rw [List.pairwise_iff_getElem] at h
  obtain ⟨i, hi, rfl⟩ := List.getElem_of_mem hs
  obtain ⟨j, hj, rfl⟩ := List.getElem_of_mem ht
  rcases Nat.lt_trichotomy i j with hij | rfl | hij
  · have := h i j hi hj hij
    omega
  · rfl
  · have := h j i hj hi hij
    omega

theorem isSurrogate_iff {code : Nat} :
    isSurrogate code = true ↔ 0xD800 ≤ code ∧ code ≤ 0xDFFF := by
  simp only [isSurrogate, Bool.and_eq_true, decide_eq_true_eq]
  rfl

theorem isSurrogate_eq_false_iff {code : Nat} :
    isSurrogate code = false ↔ code < 0xD800 ∨ 0xDFFF < code := by
  rw [← Bool.not_eq_true, isSurrogate_iff]
  omega

theorem Char.not_surrogate (c : Char) : c.toNat < 0xD800 ∨ 0xDFFF < c.toNat := by
  have h : c.toNat.isValidChar := c.valid
  simp only [Nat.isValidChar] at h
  omega

theorem Char.toNat_ofNat {code : Nat} (h : code.isValidChar) : (Char.ofNat code).toNat = code := by
  rw [Char.ofNat, dif_pos h]
  rfl

theorem scalar?_eq_some {code : Nat} {c : Char} : scalar? code = some c ↔ c.toNat = code := by
  unfold scalar?
  constructor
  · intro h
    split at h
    · next hv =>
      cases h
      exact Char.toNat_ofNat hv
    · cases h
  · intro heq
    obtain rfl := heq
    rw [if_pos (show c.toNat.isValidChar from c.valid), Char.ofNat_toNat]

theorem scalar?_isSome (code : Nat) (hle : code ≤ maxCode) (hs : isSurrogate code = false) :
    ∃ c, scalar? code = some c := by
  rw [isSurrogate_eq_false_iff] at hs
  have hv : code.isValidChar := by
    simp only [maxCode] at hle
    simp only [Nat.isValidChar]
    omega
  exact ⟨Char.ofNat code, if_pos hv⟩

namespace CharRange

theorem contains_iff {r : CharRange} {c : Char} :
    r.contains c = true ↔ r.lo.toNat ≤ c.toNat ∧ c.toNat ≤ r.hi.toNat := by
  simp [contains, Char.le_iff_toNat]

theorem contains_single {c d : Char} : (single c).contains d = true ↔ d = c := by
  rw [contains_iff, ← Char.toNat_inj]
  simp only [single]
  omega

/-! ## Clamping code points -/

/-- Where a lower bound moves to. -/
def clampLo (lo : Nat) : Nat :=
  if isSurrogate lo then surrogateLast + 1 else lo

/-- Where an upper bound moves to. -/
def clampHi (hi : Nat) : Nat :=
  if isSurrogate hi then surrogateFirst - 1 else hi

theorem clampLo_eq (lo : Nat) :
    clampLo lo = if 0xD800 ≤ lo ∧ lo ≤ 0xDFFF then 0xE000 else lo := by
  simp only [clampLo, isSurrogate_iff]
  rfl

theorem clampHi_eq (hi : Nat) :
    clampHi hi = if 0xD800 ≤ hi ∧ hi ≤ 0xDFFF then 0xD7FF else hi := by
  simp only [clampHi, isSurrogate_iff]
  rfl

/-- A character does not notice that a bound has moved. -/
theorem clampLo_le_iff (lo : Nat) (c : Char) : clampLo lo ≤ c.toNat ↔ lo ≤ c.toNat := by
  have hc := Char.not_surrogate c
  rw [clampLo_eq]
  split <;> omega

theorem le_clampHi_iff (hi : Nat) (c : Char) : c.toNat ≤ clampHi hi ↔ c.toNat ≤ hi := by
  have hc := Char.not_surrogate c
  rw [clampHi_eq]
  split <;> omega

theorem ofCodes?_eq (lo hi : Nat) :
    ofCodes? lo hi =
      if clampLo lo ≤ clampHi hi then
        match scalar? (clampLo lo), scalar? (clampHi hi) with
        | some lo, some hi => some ⟨lo, hi⟩
        | _, _ => none
      else none :=
  rfl

/-- The bounds of a clamped range as code points. -/
theorem toNat_of_ofCodes? {lo hi : Nat} {r : CharRange} (h : ofCodes? lo hi = some r) :
    r.lo.toNat = clampLo lo ∧ r.hi.toNat = clampHi hi ∧ r.lo.toNat ≤ r.hi.toNat := by
  rw [ofCodes?_eq] at h
  split at h
  · next hle =>
    split at h
    · next lo' hi' hlo hhi =>
      cases h
      rw [scalar?_eq_some] at hlo hhi
      refine ⟨hlo, hhi, ?_⟩
      simp only
      omega
    · cases h
  · cases h

theorem le_of_ofCodes? {lo hi : Nat} {r : CharRange} (h : ofCodes? lo hi = some r) :
    lo ≤ r.lo.toNat ∧ r.hi.toNat ≤ hi ∧ r.lo.toNat ≤ r.hi.toNat := by
  obtain ⟨hlo, hhi, hle⟩ := toNat_of_ofCodes? h
  exact ⟨(clampLo_le_iff lo r.lo).1 (by omega), (le_clampHi_iff hi r.hi).1 (by omega), hle⟩

/-- A clamped range holds the characters between the code points. -/
theorem contains_of_ofCodes? {lo hi : Nat} {r : CharRange} (h : ofCodes? lo hi = some r)
    {c : Char} : r.contains c = true ↔ lo ≤ c.toNat ∧ c.toNat ≤ hi := by
  obtain ⟨hlo, hhi, -⟩ := toNat_of_ofCodes? h
  rw [contains_iff, hlo, hhi, clampLo_le_iff, le_clampHi_iff]

/-- Where no range is left, no character lies between the code points. -/
theorem not_between_of_ofCodes? {lo hi : Nat} (hmax : hi ≤ maxCode)
    (h : ofCodes? lo hi = none) (c : Char) : ¬(lo ≤ c.toNat ∧ c.toNat ≤ hi) := by
  intro h'
  obtain ⟨hlo, hhi⟩ := h'
  rw [← clampLo_le_iff] at hlo
  rw [← le_clampHi_iff] at hhi
  have hle : clampLo lo ≤ clampHi hi := Nat.le_trans hlo hhi
  have hbounds : clampHi hi ≤ maxCode ∧ isSurrogate (clampLo lo) = false ∧
      isSurrogate (clampHi hi) = false := by
    rw [isSurrogate_eq_false_iff, isSurrogate_eq_false_iff, clampLo_eq, clampHi_eq]
    simp only [maxCode] at hmax ⊢
    refine ⟨?_, ?_, ?_⟩ <;> split <;> omega
  obtain ⟨hmax', hslo, hshi⟩ := hbounds
  obtain ⟨a, ha⟩ := scalar?_isSome _ (by omega) hslo
  obtain ⟨b, hb⟩ := scalar?_isSome _ hmax' hshi
  rw [ofCodes?_eq, if_pos hle, ha, hb] at h
  cases h

end CharRange

theorem areNeighbours_iff {a b : Char} (hab : a.toNat < b.toNat) :
    areNeighbours a b = true ↔ ∀ c : Char, ¬(a.toNat < c.toNat ∧ c.toNat < b.toNat) := by
  simp only [areNeighbours, Bool.or_eq_true, Bool.and_eq_true, beq_iff_eq, surrogateFirst,
    surrogateLast]
  constructor
  · intro h c
    have hc := Char.not_surrogate c
    omega
  · intro h
    by_contra hnot
    -- the code point after `a`, or the first one behind the gap, is a character in between
    have ha := Char.not_surrogate a
    have hb := Char.not_surrogate b
    have hmax := Char.toNat_le_maxCode b
    by_cases hs : isSurrogate (a.toNat + 1) = true
    · obtain ⟨c, hc⟩ := scalar?_isSome 0xE000 (by decide) (by decide)
      rw [scalar?_eq_some] at hc
      rw [isSurrogate_iff] at hs
      exact h c (by omega)
    · obtain ⟨c, hc⟩ := scalar?_isSome (a.toNat + 1) (by omega) (by simpa using hs)
      rw [scalar?_eq_some] at hc
      exact h c (by omega)

namespace Transition

/-! ## Lists as relations -/

/-- A character leads to a target by some entry of the list. -/
def Leads (ts : List Transition) (c : Char) (target : Nat) : Prop :=
  ∃ t ∈ ts, t.contains c = true ∧ t.target = target

/-- Each entry ends before the later ones begin, and none is void. -/
structure Sorted (ts : List Transition) : Prop where
  pairwise : ts.Pairwise fun t u => t.hi.toNat < u.lo.toNat
  lo_le_hi : ∀ t ∈ ts, t.lo.toNat ≤ t.hi.toNat

theorem leads_nil (c : Char) (q : Nat) : ¬Leads [] c q := by
  intro h
  obtain ⟨t, ht, -⟩ := h
  cases ht

theorem leads_cons {t : Transition} {ts : List Transition} {c : Char} {q : Nat} :
    Leads (t :: ts) c q ↔ t.contains c = true ∧ t.target = q ∨ Leads ts c q := by
  simp only [Leads, List.mem_cons, or_and_right, exists_or, exists_eq_left]

theorem leads_reverse {ts : List Transition} {c : Char} {q : Nat} :
    Leads ts.reverse c q ↔ Leads ts c q := by
  simp only [Leads, List.mem_reverse]

theorem sorted_nil : Sorted [] :=
  ⟨List.Pairwise.nil, fun _ h => by cases h⟩

/-- No entry is empty. -/
theorem Sorted.leads_lo {t : Transition} {ts : List Transition} (h : Sorted ts) (ht : t ∈ ts) :
    Leads ts t.lo t.target :=
  ⟨t, ht, CharRange.contains_iff.2 ⟨Nat.le_refl _, h.lo_le_hi t ht⟩, rfl⟩

theorem Sorted.tail {t : Transition} {ts : List Transition} (h : Sorted (t :: ts)) : Sorted ts :=
  ⟨(List.pairwise_cons.1 h.pairwise).2, fun u hu => h.lo_le_hi u (List.mem_cons_of_mem _ hu)⟩

theorem Sorted.filter {ts : List Transition} (h : Sorted ts) (p : Transition → Bool) :
    Sorted (ts.filter p) :=
  ⟨h.pairwise.filter p, fun t ht => h.lo_le_hi t (List.mem_filter.1 ht).1⟩

/-- In a sorted list a character is in one entry at most. -/
theorem Sorted.eq_of_contains {ts : List Transition} (h : Sorted ts) {t u : Transition} {c : Char}
    (ht : t ∈ ts) (hu : u ∈ ts) (htc : t.contains c = true) (huc : u.contains c = true) :
    t = u := by
  rw [CharRange.contains_iff] at htc huc
  exact eq_of_between h.pairwise ht hu htc huc

theorem Sorted.leads_unique {ts : List Transition} (h : Sorted ts) {c : Char} {p q : Nat}
    (hp : Leads ts c p) (hq : Leads ts c q) : p = q := by
  obtain ⟨t, ht, htc, rfl⟩ := hp
  obtain ⟨u, hu, huc, rfl⟩ := hq
  rw [h.eq_of_contains ht hu htc huc]

/-! ## Joining neighbours -/

/-- The latest entry is in front and ends before `bound`. -/
structure Descending (bound : Nat) (done : List Transition) : Prop where
  sorted : Sorted done.reverse
  below : ∀ t ∈ done, t.hi.toNat < bound

theorem Descending.cons {done : List Transition} {t : Transition}
    (h : Descending t.lo.toNat done) (ht : t.lo.toNat ≤ t.hi.toNat) {bound : Nat}
    (hb : t.hi.toNat < bound) : Descending bound (cons done t) := by
  have hpair := h.sorted.pairwise
  rw [List.pairwise_reverse] at hpair
  have hle : ∀ u ∈ done, u.lo.toNat ≤ u.hi.toNat := fun u hu =>
    h.sorted.lo_le_hi u (List.mem_reverse.2 hu)
  have hplain : Descending bound (t :: done) := by
    refine ⟨⟨?_, fun u hu => ?_⟩, fun u hu => ?_⟩
    · rw [List.pairwise_reverse, List.pairwise_cons]
      exact ⟨fun u hu => h.below u hu, hpair⟩
    · rcases List.mem_cons.1 (List.mem_reverse.1 hu) with rfl | hu
      · exact ht
      · exact hle u hu
    · rcases List.mem_cons.1 hu with rfl | hu
      · exact hb
      · have := h.below u hu
        omega
  unfold Transition.cons
  split
  · exact hplain
  · next last rest =>
    split
    · -- the last entry only grows upwards: it stays after the others
      have hlast := h.below last (List.mem_cons_self ..)
      have hlo := hle last (List.mem_cons_self ..)
      rw [List.pairwise_cons] at hpair
      refine ⟨⟨?_, fun u hu => ?_⟩, fun u hu => ?_⟩
      · rw [List.pairwise_reverse, List.pairwise_cons]
        exact hpair
      · rcases List.mem_cons.1 (List.mem_reverse.1 hu) with rfl | hu
        · simp only
          omega
        · exact hle u (List.mem_cons_of_mem _ hu)
      · rcases List.mem_cons.1 hu with rfl | hu
        · exact hb
        · have := h.below u (List.mem_cons_of_mem _ hu)
          omega
    · exact hplain

/-- An entry that grows covers what both covered, since nothing lies between them. -/
theorem leads_cons_join {done : List Transition} {t : Transition} (h : Descending t.lo.toNat done)
    (ht : t.lo.toNat ≤ t.hi.toNat) {c : Char} {q : Nat} :
    Leads (cons done t) c q ↔ Leads (t :: done) c q := by
  unfold Transition.cons
  split
  · rfl
  · next last rest =>
    split
    · next hjoin =>
      obtain ⟨htarget, hnext⟩ := hjoin
      have hlast := h.below last (List.mem_cons_self ..)
      have hlo := h.sorted.lo_le_hi last (by simp)
      have hgap := (areNeighbours_iff hlast).1 hnext c
      rw [leads_cons, leads_cons, leads_cons, CharRange.contains_iff, CharRange.contains_iff,
        CharRange.contains_iff, htarget, ← or_assoc, ← or_and_right]
      apply or_congr_left
      apply and_congr_left
      intro _
      simp only
      omega
    · rfl

/-- What has been joined so far stays in order and leads where the entries led. The bound of what is
done is the first entry to come, so there is none to name at the end. -/
theorem descending_foldl {ts done : List Transition} (hts : Sorted ts)
    (h : ∀ t ∈ ts.head?, Descending t.lo.toNat done) (hdone : ∃ b, Descending b done) :
    (∃ b, Descending b (ts.foldl cons done)) ∧
      ∀ c q, Leads (ts.foldl cons done) c q ↔ Leads done c q ∨ Leads ts c q := by
  induction ts generalizing done with
  | nil => exact ⟨hdone, fun c q => by simp [leads_nil]⟩
  | cons t ts ih =>
    have hd : Descending t.lo.toNat done := h t (by simp)
    have hle := hts.lo_le_hi t (List.mem_cons_self ..)
    obtain ⟨hs, hleads⟩ := @ih (cons done t) hts.tail
      (fun u hu => hd.cons hle
        ((List.pairwise_cons.1 hts.pairwise).1 u (List.mem_of_mem_head? hu)))
      ⟨_, hd.cons hle (Nat.lt_succ_self _)⟩
    refine ⟨hs, fun c q => ?_⟩
    rw [List.foldl_cons, hleads, leads_cons_join hd hle, leads_cons, leads_cons]
    tauto

theorem descending_nil (bound : Nat) : Descending bound [] :=
  ⟨sorted_nil, fun _ h => by cases h⟩

/-- Joining keeps what leads where. -/
theorem leads_join {ts : List Transition} (h : Sorted ts) {c : Char} {q : Nat} :
    Leads (join ts) c q ↔ Leads ts c q := by
  rw [join, leads_reverse,
    (descending_foldl h (fun _ _ => descending_nil _) ⟨0, descending_nil 0⟩).2]
  simp [leads_nil]

/-- Joining keeps a list sorted. -/
theorem sorted_join {ts : List Transition} (h : Sorted ts) : Sorted (join ts) := by
  obtain ⟨⟨b, hb⟩, -⟩ := descending_foldl h (fun _ _ => descending_nil _) ⟨0, descending_nil 0⟩
  exact hb.sorted

end Transition

end LongestMatch
