import LongestMatch.Proofs.Partition
import LongestMatch.Proofs.ReadBack

/-!
# The forms of a table say the same

A list of transitions of two or more entries may be stored densely or sparsely. Whichever of its
forms is taken, looking a character up gives the target of the one entry around it, and reading the
table gives the list back if no two neighbours of it could be one (`forms_agree`).

Reading the slots of a dense table run by run (`Table.scan`) finds its holes and the bounds of its
entries again, where `Table.transitions` goes from slot to slot; the two come to the same
(`scan_dense`).
-/

namespace LongestMatch

namespace Table

open Transition (Joined Leads Sorted)

/-! ## Runs of slots -/

section Runs

variable {lo code : Nat} {value : Option Nat} {slots : List (Option Nat)}

/-- The runs follow one another, from `lo` up to the last of the slots. -/
theorem runsFrom_ordered (value : Option Nat) (slots : List (Option Nat)) (h : lo < code) :
    (∀ s ∈ runsFrom lo value code slots, lo ≤ s.lo ∧ s.lo ≤ s.hi ∧ s.hi < code + slots.length) ∧
      (runsFrom lo value code slots).Pairwise fun s t => s.hi < t.lo := by
  induction slots generalizing lo value code with
  | nil =>
    refine ⟨fun s hs => ?_, List.pairwise_singleton _ _⟩
    rw [List.mem_singleton.1 hs]
    exact ⟨Nat.le_refl _, Nat.le_sub_one_of_lt h, Nat.sub_one_lt_of_lt h⟩
  | cons slot rest ih =>
    rw [runsFrom, List.length_cons]
    split
    · -- the run goes on
      obtain ⟨hmem, hpair⟩ := ih value (Nat.lt_succ_of_lt h)
      refine ⟨fun s hs => ?_, hpair⟩
      have := hmem s hs
      omega
    · -- another run begins
      obtain ⟨hmem, hpair⟩ := ih slot (Nat.lt_succ_self code)
      refine ⟨List.forall_mem_cons.2 ⟨?_, fun s hs => ?_⟩, List.pairwise_cons.2 ⟨fun s hs => ?_, hpair⟩⟩
      · simp only
        omega
      · have := hmem s hs
        omega
      · have := hmem s hs
        simp only
        omega

/-- The slot of a code point is the one in front or lies behind it. -/
theorem slot_cons_iff {slot : Option Nat} {pos q : Nat} :
    code ≤ pos ∧ (slot :: slots)[pos - code]? = some (some q) ↔
      pos = code ∧ slot = some q ∨ code + 1 ≤ pos ∧ slots[pos - (code + 1)]? = some (some q) := by
  rcases Nat.lt_trichotomy pos code with hlt | rfl | hgt
  · simp [Nat.not_le.2 hlt, hlt.ne, Nat.not_le.2 (Nat.lt_succ_of_lt hlt)]
  · simp
  · rw [show pos - code = pos - (code + 1) + 1 by omega, List.getElem?_cons_succ]
    simp [hgt.le, hgt.ne', Nat.succ_le_of_lt hgt]

/-- A code point is in a run with the value of its slot. -/
theorem exists_runsFrom_iff (h : lo < code) {pos q : Nat} :
    (∃ s ∈ runsFrom lo value code slots, s.lo ≤ pos ∧ pos ≤ s.hi ∧ s.value = some q) ↔
      lo ≤ pos ∧ pos < code ∧ value = some q ∨ code ≤ pos ∧ slots[pos - code]? = some (some q) := by
  induction slots generalizing lo value code with
  | nil =>
    have hlast : pos ≤ code - 1 ↔ pos < code := by omega
    simp [runsFrom, hlast]
  | cons slot rest ih =>
    rw [slot_cons_iff]
    by_cases heq : slot = value
    · -- the run goes on
      rw [runsFrom, if_pos heq, ih (Nat.lt_succ_of_lt h), heq]
      grind
    · -- another run begins
      rw [runsFrom, if_neg heq]
      simp only [List.mem_cons, exists_eq_or_imp, ih (Nat.lt_succ_self code)]
      grind

end Runs

theorem runsOf_ordered (first : Nat) (slots : List (Option Nat)) :
    (∀ s ∈ runsOf first slots, s.hi < first + slots.length) ∧
      (runsOf first slots).Pairwise fun s t => s.hi < t.lo := by
  cases slots with
  | nil => exact ⟨by simp [runsOf], List.Pairwise.nil⟩
  | cons slot rest =>
    obtain ⟨hmem, hpair⟩ := runsFrom_ordered slot rest (Nat.lt_succ_self first)
    refine ⟨fun s hs => ?_, hpair⟩
    have := (hmem s hs).2.2
    rw [List.length_cons]
    omega

theorem exists_runsOf_iff {first pos q : Nat} {slots : List (Option Nat)} :
    (∃ s ∈ runsOf first slots, s.lo ≤ pos ∧ pos ≤ s.hi ∧ s.value = some q) ↔
      first ≤ pos ∧ slots[pos - first]? = some (some q) := by
  cases slots with
  | nil => simp [runsOf]
  | cons slot rest =>
    rw [runsOf, exists_runsFrom_iff (Nat.lt_succ_self first), slot_cons_iff]
    grind

/-- A table read run by run leads where its slots do, if these are for code points. -/
theorem leads_scan_dense {first : Nat} {slots : Array (Option Nat)}
    (hmax : first + slots.size ≤ maxCode + 1) {c : Char} {q : Nat} :
    Leads (dense first slots).scan c q ↔ (dense first slots).get c = some q := by
  obtain ⟨hmem, hpair⟩ := runsOf_ordered first slots.toList
  have hcodes : ∀ s ∈ runsOf first slots.toList, s.hi ≤ maxCode := by
    intro s hs
    have := hmem s hs
    rw [Array.length_toList] at this
    omega
  rw [scan, Transition.leads_join (Intervals.Segment.sorted_transitions hpair),
    Intervals.Segment.leads_transitions hcodes, exists_runsOf_iff, get, Array.getElem?_toList,
    Array.getD_eq_getD_getElem?]
  split
  · next hle => cases slots[c.toNat - first]? <;> simp [hle]
  · next hgt => simp [hgt]

/-- Reading run by run comes to the same as reading slot by slot. -/
theorem scan_dense {first : Nat} {slots : Array (Option Nat)}
    (hmax : first + slots.size ≤ maxCode + 1) :
    (dense first slots).scan = (dense first slots).transitions := by
  have hscan : Joined (dense first slots).scan :=
    Transition.joined_join (Intervals.Segment.sorted_transitions (runsOf_ordered _ _).2)
  have htransitions : Joined (dense first slots).transitions := by
    rw [transitions_dense]
    exact Transition.joined_join (sorted_singles _ _)
  exact hscan.eq_of_leads htransitions fun c q =>
    (leads_scan_dense hmax).trans leads_transitions_dense.symm

/-! ## Vacant slots -/

theorem mem_fill {slots : Array (Option Nat)} {i count : Nat} {value slot : Option Nat}
    (h : slot ∈ fill slots i value count) : slot ∈ slots ∨ slot = value := by
  induction count generalizing slots i with
  | zero => exact .inl h
  | succ count ih =>
    rcases ih h with h | h
    · exact Array.mem_or_eq_of_mem_setIfInBounds h
    · exact .inr h

/-- A slot is vacant or holds the target of an entry. -/
theorem mem_slotsOf {first span : Nat} {ts : List Transition} {slot : Option Nat}
    (h : slot ∈ slotsOf first span ts) : slot = none ∨ ∃ t ∈ ts, slot = some t.target := by
  have hfold : ∀ slots : Array (Option Nat), slot ∈ ts.foldl (fun slots t =>
      fill slots (t.lo.toNat - first) (some t.target) (t.hi.toNat + 1 - t.lo.toNat)) slots →
      slot ∈ slots ∨ ∃ t ∈ ts, slot = some t.target := by
    clear h
    induction ts with
    | nil => exact fun slots h => .inl h
    | cons t ts ih =>
      intro slots h
      rcases ih _ h with h | ⟨u, hu, heq⟩
      · rcases mem_fill h with h | h
        · exact .inl h
        · exact .inr ⟨t, List.mem_cons_self .., h⟩
      · exact .inr ⟨u, List.mem_cons_of_mem _ hu, heq⟩
  refine (hfold _ h).imp_left fun h => ?_
  exact (Array.mem_replicate.1 h).2

/-- Where no entry leads to the number of no state, storing numbers as words loses nothing. -/
theorem vacate_dense {first span : Nat} {ts : List Transition} {target : Nat}
    (h : ∀ t ∈ ts, t.target ≠ target) :
    (dense first (slotsOf first span ts)).vacate target = dense first (slotsOf first span ts) := by
  have hsame : (slotsOf first span ts).map (fun slot => slot.filter (· ≠ target)) =
      slotsOf first span ts := by
    refine (Array.map_congr_left fun slot hslot => ?_).trans (Array.map_id _)
    rcases mem_slotsOf hslot with rfl | ⟨t, ht, rfl⟩
    · rfl
    · simp [h t ht]
  rw [vacate, hsame]

/-! ## All forms -/

/-- The forms that a list may be stored in where states are numbered by words: one with fewer than
two entries has only one form. -/
def formsOf : List Transition → List Table
  | [] => [empty]
  | [t] => [if t.lo = t.hi then single t.lo t.target else range t]
  | t :: u :: rest =>
    let ts := t :: u :: rest
    let span := (rest.getLastD u).hi.toNat - t.lo.toNat + 1
    [(dense t.lo.toNat (slotsOf t.lo.toNat span ts)).vacate noState, sparse ts.toArray]

theorem ofWords_mem_formsOf (config : Config) (ts : List Transition) :
    ofWords config ts ∈ formsOf ts := by
  unfold ofWords build
  split
  · exact List.mem_singleton.2 rfl
  · next t =>
    refine List.mem_singleton.2 ?_
    split <;> rfl
  · next t u rest =>
    simp only
    split
    · exact List.mem_cons_self ..
    · exact List.mem_cons_of_mem _ (List.mem_singleton.2 rfl)

section Forms

variable {ts : List Transition} {table : Table} {c : Char} {q : Nat}
  (htargets : ∀ t ∈ ts, t.target ≠ noState) (htable : table ∈ formsOf ts)

include htargets htable

/-- Every form finds the target of the entry around a character. -/
theorem get_of_mem_formsOf (h : Sorted ts) : table.get c = some q ↔ Leads ts c q := by
  unfold formsOf at htable
  split at htable
  · rw [List.mem_singleton.1 htable]
    exact get_empty
  · rw [List.mem_singleton.1 htable]
    exact get_single
  · rcases List.mem_pair.1 htable with rfl | rfl
    · rw [vacate_dense htargets]
      exact get_dense h
    · exact get_sparse h

/-- Every form gives the list back, read in either way. -/
theorem scan_of_mem_formsOf (h : Joined ts) : table.scan = ts ∧ table.transitions = ts := by
  unfold formsOf at htable
  split at htable
  · rw [List.mem_singleton.1 htable]
    exact ⟨rfl, rfl⟩
  · next t =>
    rw [List.mem_singleton.1 htable]
    split
    · next heq => exact ⟨transitions_single heq, transitions_single heq⟩
    · exact ⟨rfl, rfl⟩
  · next t u rest =>
    rcases List.mem_pair.1 htable with rfl | rfl
    · rw [vacate_dense htargets]
      have hmax : t.lo.toNat + (slotsOf t.lo.toNat
          ((rest.getLastD u).hi.toNat - t.lo.toNat + 1) (t :: u :: rest)).size ≤ maxCode + 1 := by
        have := Char.toNat_le_maxCode t.lo
        have := Char.toNat_le_maxCode (rest.getLastD u).hi
        rw [size_slotsOf]
        omega
      exact ⟨(scan_dense hmax).trans (transitions_slotsOf h), transitions_slotsOf h⟩
    · exact ⟨rfl, rfl⟩

end Forms

/-- All forms of a sorted list of transitions say the same. Whatever form the settings choose, a
character leads to the target of the one entry that contains it and nowhere if there is none; and
if no entry continues the one before it, then reading the table, run by run or slot by slot, gives
the list back. -/
theorem forms_agree {ts : List Transition} (h : Sorted ts)
    (htargets : ∀ t ∈ ts, t.target ≠ noState) :
    (∀ config, ofWords config ts ∈ formsOf ts) ∧
      ∀ table ∈ formsOf ts,
        (∀ c, ∀ t ∈ ts, t.contains c = true →
          table.get c = some t.target ∧ ∀ u ∈ ts, u.contains c = true → u = t) ∧
        (∀ c, (∀ t ∈ ts, t.contains c = false) → table.get c = none) ∧
        (Joined ts → table.scan = ts ∧ table.transitions = ts) := by
  refine ⟨fun config => ofWords_mem_formsOf config ts, fun table htable => ⟨?_, ?_, ?_⟩⟩
  · intro c t ht hc
    exact ⟨(get_of_mem_formsOf htargets htable h).2 ⟨t, ht, hc, rfl⟩,
      fun u hu huc => h.eq_of_contains hu ht huc hc⟩
  · intro c hnone
    refine Option.eq_none_iff_forall_ne_some.2 fun q hq => ?_
    obtain ⟨t, ht, hc, -⟩ := (get_of_mem_formsOf htargets htable h).1 hq
    rw [hnone t ht] at hc
    cases hc
  · exact fun hjoined => scan_of_mem_formsOf htargets htable hjoined

/-- Two entries on either side of the surrogate gap, of which the first goes up to it. -/
def besideGap : List Transition :=
  [⟨⟨'a', '\uD7FF'⟩, 1⟩, ⟨⟨'\uE000', '\uE0FF'⟩, 2⟩]

theorem joined_besideGap : Joined besideGap := by
  refine ⟨⟨?_, ?_⟩, ?_⟩
  · simp [besideGap]
  · simp [besideGap]
  · simp [besideGap, Transition.Continues]

theorem forms_agree_besideGap :
    Sorted besideGap ∧ (∀ t ∈ besideGap, t.target ≠ noState) ∧
      ∀ table ∈ formsOf besideGap, table.get '\uD7FF' = some 1 ∧ table.get '\uE000' = some 2 ∧
        table.get '\uE100' = none ∧ table.scan = besideGap := by
  have htargets : ∀ t ∈ besideGap, t.target ≠ noState := by decide
  refine ⟨joined_besideGap.sorted, htargets, fun table htable => ?_⟩
  obtain ⟨hget, hnone, hscan⟩ := (forms_agree joined_besideGap.sorted htargets).2 table htable
  refine ⟨(hget _ ⟨⟨'a', '\uD7FF'⟩, 1⟩ (by decide) (by decide)).1,
    (hget _ ⟨⟨'\uE000', '\uE0FF'⟩, 2⟩ (by decide) (by decide)).1,
    hnone _ (by decide), (hscan joined_besideGap).1⟩

end Table

end LongestMatch
