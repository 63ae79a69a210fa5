import LongestMatch.Intervals
import LongestMatch.Proofs.Ranges

/-!
# Partitions as maps

A partition of the code points is *valid* if its first run starts at 0 and the starts ascend up to
`maxCode`. Every write keeps it so, and read through `get` a partition behaves like the map that it
stands for.

* `get_update`, `get_overwrite`, `get_fillUnset` — a write changes the code points of its range and
  no other.
* `exists_segment`, `value_eq_get` — the segments cover every code point, with the value it has.
* `leads_toTransitions`, `sorted_toTransitions` — the transitions of a partition lead each character
  where the partition sends its code point.
-/

namespace LongestMatch

namespace Intervals

variable {α : Type}

/-! ## Looking up in a row of runs -/

/-- The value of a code point in a row of runs. -/
def lookup (runs : List (Run α)) (code : Nat) : Option α :=
  ((runs.takeWhile fun r => r.start ≤ code).getLast?).bind Run.value

theorem get_eq_lookup (iv : Intervals α) (code : Nat) : iv.get code = lookup iv.runs code :=
  rfl

theorem lookup_cons_of_gt {r : Run α} {rest : List (Run α)} {code : Nat} (h : code < r.start) :
    lookup (r :: rest) code = none := by
  simp [lookup, Nat.not_le.2 h]

theorem lookup_single {r : Run α} {code : Nat} (h : r.start ≤ code) :
    lookup [r] code = r.value := by
  simp [lookup, h]

theorem lookup_cons_of_le {r next : Run α} {rest : List (Run α)} {code : Nat}
    (h : r.start ≤ code) (hnext : next.start ≤ code) :
    lookup (r :: next :: rest) code = lookup (next :: rest) code := by
  simp [lookup, h, hnext]

theorem lookup_cons_of_lt {r next : Run α} {rest : List (Run α)} {code : Nat}
    (h : r.start ≤ code) (hnext : code < next.start) :
    lookup (r :: next :: rest) code = r.value := by
  simp [lookup, h, Nat.not_le.2 hnext]

/-- The starts ascend. -/
def Ascending (runs : List (Run α)) : Prop :=
  runs.Pairwise fun r s => r.start < s.start

theorem Ascending.tail {r : Run α} {rest : List (Run α)} (h : Ascending (r :: rest)) :
    Ascending rest :=
  (List.pairwise_cons.1 h).2

theorem Ascending.head_lt {r : Run α} {rest : List (Run α)} (h : Ascending (r :: rest)) :
    ∀ s ∈ rest, r.start < s.start :=
  (List.pairwise_cons.1 h).1

theorem Ascending.head_le {r : Run α} {rest : List (Run α)} (h : Ascending (r :: rest)) :
    ∀ s ∈ r :: rest, r.start ≤ s.start := by
  intro s hs
  rcases List.mem_cons.1 hs with rfl | hs
  · exact Nat.le_refl _
  · exact Nat.le_of_lt (h.head_lt s hs)

/-- A run covers a code point if it is the last one that starts at or before it. -/
structure Covers (runs : List (Run α)) (r : Run α) (code : Nat) : Prop where
  mem : r ∈ runs
  start_le : r.start ≤ code
  latest : ∀ s ∈ runs, s.start ≤ code → s.start ≤ r.start

/-- The value of a code point is that of the run that covers it. -/
theorem Covers.lookup_eq {runs : List (Run α)} (hasc : Ascending runs) {r : Run α} {code : Nat}
    (h : Covers runs r code) : lookup runs code = r.value := by
  have hle := h.start_le
  induction runs with
  | nil => cases h.mem
  | cons first rest ih =>
    cases rest with
    | nil =>
      rcases List.mem_singleton.1 h.mem with rfl
      exact lookup_single hle
    | cons next rest =>
      have hfirst := hasc.head_lt next (List.mem_cons_self ..)
      by_cases hnext : next.start ≤ code
      · -- the first run cannot be the one: the next one starts early enough as well
        rw [lookup_cons_of_le (by omega) hnext]
        refine ih hasc.tail ⟨?_, hle, fun s hs => h.latest s (List.mem_cons_of_mem _ hs)⟩
        rcases List.mem_cons.1 h.mem with rfl | hr
        · have := h.latest next (by simp) hnext
          omega
        · exact hr
      · rcases List.mem_cons.1 h.mem with rfl | hr
        · exact lookup_cons_of_lt hle (by omega)
        · have := hasc.tail.head_le r hr
          omega

/-- Some run covers a code point that the row has reached. -/
theorem exists_covers {runs : List (Run α)} (hasc : Ascending runs) {code : Nat}
    (h : ∃ s ∈ runs, s.start ≤ code) : ∃ r, Covers runs r code := by
  induction runs with
  | nil =>
    obtain ⟨s, hs, -⟩ := h
    cases hs
  | cons r rest ih =>
    by_cases hrest : ∃ s ∈ rest, s.start ≤ code
    · obtain ⟨best, hbest⟩ := ih hasc.tail hrest
      refine ⟨best, List.mem_cons_of_mem _ hbest.mem, hbest.start_le, fun t ht hle => ?_⟩
      rcases List.mem_cons.1 ht with rfl | ht
      · exact Nat.le_of_lt (hasc.head_lt best hbest.mem)
      · exact hbest.latest t ht hle
    · have honly : ∀ t ∈ r :: rest, t.start ≤ code → t = r := by
        intro t ht hle
        rcases List.mem_cons.1 ht with rfl | ht
        · rfl
        · exact absurd ⟨t, ht, hle⟩ hrest
      obtain ⟨s, hs, hle⟩ := h
      obtain rfl := honly s hs hle
      refine ⟨s, hs, hle, fun t ht htle => ?_⟩
      obtain rfl := honly t ht htle
      exact Nat.le_refl _

/-! ## Valid partitions -/

/-- The runs cover the code points from 0 on, in order. -/
structure Valid (iv : Intervals α) : Prop where
  ascending : Ascending iv.runs
  starts_at_zero : ∃ r ∈ iv.runs, r.start = 0
  le_maxCode : ∀ r ∈ iv.runs, r.start ≤ maxCode

theorem valid_unset : (unset : Intervals α).Valid :=
  ⟨List.pairwise_singleton _ _, ⟨_, List.mem_singleton.2 rfl, rfl⟩, fun r hr => by
    rcases List.mem_singleton.1 hr with rfl
    exact Nat.zero_le _⟩

theorem get_unset (code : Nat) : (unset : Intervals α).get code = none := by
  simp [get, unset]

theorem Valid.exists_start_le {iv : Intervals α} (h : iv.Valid) (code : Nat) :
    ∃ r ∈ iv.runs, r.start ≤ code := by
  obtain ⟨first, hfirst, hzero⟩ := h.starts_at_zero
  exact ⟨first, hfirst, by omega⟩

/-- The run that covers a code point, and its value. -/
theorem Valid.covers {iv : Intervals α} (h : iv.Valid) (code : Nat) :
    ∃ r, Covers iv.runs r code ∧ iv.get code = r.value := by
  obtain ⟨r, hr⟩ := exists_covers h.ascending (h.exists_start_le code)
  exact ⟨r, hr, hr.lookup_eq h.ascending⟩

/-! ## Cutting -/

/-- The first run stays the first. -/
theorem exists_cut_cons (code : Nat) (r : Run α) (rest : List (Run α)) :
    ∃ rest', cut code (r :: rest) = r :: rest' := by
  cases rest with
  | nil =>
    unfold cut
    split <;> exact ⟨_, rfl⟩
  | cons next rest =>
    unfold cut
    split <;> exact ⟨_, rfl⟩

/-- A run of a row that has been cut is an old one, or begins at the cut, after an old one. -/
theorem mem_cut {code : Nat} {runs : List (Run α)} {r : Run α} (h : r ∈ cut code runs) :
    r ∈ runs ∨ r.start = code ∧ ∃ s ∈ runs, s.start < code := by
  fun_induction cut code runs with
  | case1 => cases h
  | case2 first hlt => -- the cut is in the last run
    rcases List.mem_cons.1 h with rfl | h
    · exact Or.inl (List.mem_cons_self ..)
    · rw [List.mem_singleton.1 h]
      exact Or.inr ⟨rfl, first, List.mem_cons_self .., hlt⟩
  | case3 first hlt => exact Or.inl h
  | case4 first next rest hlt => -- the cut is in the first run
    rcases List.mem_cons.1 h with rfl | h
    · exact Or.inl (List.mem_cons_self ..)
    · rcases List.mem_cons.1 h with rfl | h
      · exact Or.inr ⟨rfl, first, List.mem_cons_self .., hlt.1⟩
      · exact Or.inl (List.mem_cons_of_mem _ h)
  | case5 first next rest hlt ih => -- the cut is not in the first run
    rcases List.mem_cons.1 h with rfl | h
    · exact Or.inl (List.mem_cons_self ..)
    · rcases ih h with h | ⟨hstart, s, hs, hbefore⟩
      · exact Or.inl (List.mem_cons_of_mem _ h)
      · exact Or.inr ⟨hstart, s, List.mem_cons_of_mem _ hs, hbefore⟩

theorem mem_cut_of_mem {code : Nat} {runs : List (Run α)} {r : Run α} (h : r ∈ runs) :
    r ∈ cut code runs := by
  fun_induction cut code runs with
  | case1 => cases h
  | case2 first hlt => exact List.mem_cons.2 (Or.inl (List.mem_singleton.1 h))
  | case3 first hlt => exact h
  | case4 first next rest hlt =>
    rcases List.mem_cons.1 h with rfl | h
    · exact List.mem_cons_self ..
    · exact List.mem_cons_of_mem _ (List.mem_cons_of_mem _ h)
  | case5 first next rest hlt ih =>
    rcases List.mem_cons.1 h with rfl | h
    · exact List.mem_cons_self ..
    · exact List.mem_cons_of_mem _ (ih h)

theorem ascending_cut {code : Nat} {runs : List (Run α)} (hasc : Ascending runs) :
    Ascending (cut code runs) := by
  fun_induction cut code runs with
  | case1 => exact hasc
  | case2 first hlt => simpa [Ascending] using hlt
  | case3 first hlt => exact hasc
  | case4 first next rest hlt =>
    have hrest : ∀ s ∈ next :: rest, code < s.start := fun s hs =>
      Nat.lt_of_lt_of_le hlt.2 (hasc.tail.head_le s hs)
    refine List.pairwise_cons.2 ⟨fun s hs => ?_, List.pairwise_cons.2 ⟨hrest, hasc.tail⟩⟩
    rcases List.mem_cons.1 hs with rfl | hs
    · exact hlt.1
    · exact hasc.head_lt s hs
  | case5 first next rest hlt ih =>
    refine List.pairwise_cons.2 ⟨fun s hs => ?_, ih hasc.tail⟩
    rcases mem_cut hs with hs | ⟨heq, t, ht, hbefore⟩
    · exact hasc.head_lt s hs
    · have := hasc.head_lt t ht
      omega

/-- After a cut a run starts there, if the row has begun before. -/
theorem exists_start_cut {code : Nat} {runs : List (Run α)} (hasc : Ascending runs)
    (h : ∃ s ∈ runs, s.start ≤ code) : ∃ r ∈ cut code runs, r.start = code := by
  obtain ⟨first, hfirst, hle⟩ := h
  fun_induction cut code runs generalizing first with
  | case1 => cases hfirst
  | case2 r hlt => exact ⟨⟨code, r.value⟩, by simp, rfl⟩
  | case3 r hlt =>
    rw [List.mem_singleton.1 hfirst] at hle
    exact ⟨r, List.mem_singleton.2 rfl, by omega⟩
  | case4 r next rest hlt => exact ⟨⟨code, r.value⟩, by simp, rfl⟩
  | case5 r next rest hlt ih =>
    by_cases hnext : next.start ≤ code
    · obtain ⟨s, hs, heq⟩ := ih hasc.tail next (List.mem_cons_self ..) hnext
      exact ⟨s, List.mem_cons_of_mem _ hs, heq⟩
    · -- the row reaches the code point with its first run only, which was not cut
      have hr := hasc.head_le first hfirst
      exact ⟨r, List.mem_cons_self .., by omega⟩

/-- Cutting changes no value. -/
theorem lookup_cut (cutAt : Nat) {runs : List (Run α)} (hasc : Ascending runs) (code : Nat) :
    lookup (cut cutAt runs) code = lookup runs code := by
  fun_induction cut cutAt runs with
  | case1 => rfl
  | case2 r hlt =>
    rcases Nat.lt_or_ge code r.start with hr | hr
    · rw [lookup_cons_of_gt hr, lookup_cons_of_gt hr]
    · rw [lookup_single hr]
      rcases Nat.lt_or_ge code cutAt with hcode | hcode
      · exact lookup_cons_of_lt hr hcode
      · rw [lookup_cons_of_le hr hcode, lookup_single hcode]
  | case3 r hlt => rfl
  | case4 r next rest hlt =>
    -- the cut is before the next run: the three runs in a row come to the two
    rcases Nat.lt_or_ge code r.start with hr | hr
    · rw [lookup_cons_of_gt hr, lookup_cons_of_gt hr]
    · rcases Nat.lt_or_ge code cutAt with hcode | hcode
      · rw [lookup_cons_of_lt hr hcode, lookup_cons_of_lt hr (by omega)]
      · rw [lookup_cons_of_le hr hcode]
        rcases Nat.lt_or_ge code next.start with hnext | hnext
        · rw [lookup_cons_of_lt hcode hnext, lookup_cons_of_lt hr hnext]
        · rw [lookup_cons_of_le hcode hnext, lookup_cons_of_le hr hnext]
  | case5 r next rest hlt ih =>
    have ih := ih hasc.tail
    -- the value of the first run ends where it did, as the next one stays in its place
    obtain ⟨rest', hrest'⟩ := exists_cut_cons cutAt next rest
    rw [hrest'] at ih ⊢
    rcases Nat.lt_or_ge code r.start with hr | hr
    · rw [lookup_cons_of_gt hr, lookup_cons_of_gt hr]
    · rcases Nat.lt_or_ge code next.start with hnext | hnext
      · rw [lookup_cons_of_lt hr hnext, lookup_cons_of_lt hr hnext]
      · rw [lookup_cons_of_le hr hnext, lookup_cons_of_le hr hnext, ih]

theorem Valid.split {iv : Intervals α} (h : iv.Valid) (code : Nat) : (iv.split code).Valid := by
  unfold Intervals.split
  split
  · next hmax =>
    obtain ⟨first, hfirst, hzero⟩ := h.starts_at_zero
    refine ⟨ascending_cut h.ascending, ⟨first, mem_cut_of_mem hfirst, hzero⟩, fun r hr => ?_⟩
    rcases mem_cut hr with hr | ⟨rfl, -⟩
    · exact h.le_maxCode r hr
    · exact hmax
  · exact h

theorem Valid.get_split {iv : Intervals α} (h : iv.Valid) (cutAt code : Nat) :
    (iv.split cutAt).get code = iv.get code := by
  unfold Intervals.split
  split
  · rw [get_eq_lookup, get_eq_lookup, lookup_cut cutAt h.ascending]
  · rfl

theorem Valid.exists_start_split {iv : Intervals α} (h : iv.Valid) (code : Nat)
    (hmax : code ≤ maxCode) : ∃ r ∈ (iv.split code).runs, r.start = code := by
  rw [Intervals.split, if_pos hmax]
  exact exists_start_cut h.ascending (h.exists_start_le code)

theorem Valid.mem_split {iv : Intervals α} {r : Run α} (hr : r ∈ iv.runs) (code : Nat) :
    r ∈ (iv.split code).runs := by
  unfold Intervals.split
  split
  · exact mem_cut_of_mem hr
  · exact hr

/-! ## Writing -/

theorem Valid.map {iv : Intervals α} (h : iv.Valid) {g : Run α → Run α}
    (hg : ∀ r, (g r).start = r.start) : Valid ⟨iv.runs.map g⟩ := by
  obtain ⟨first, hfirst, hzero⟩ := h.starts_at_zero
  refine ⟨?_, ⟨g first, List.mem_map_of_mem hfirst, by rw [hg, hzero]⟩, fun r hr => ?_⟩
  · refine List.pairwise_map.2 (h.ascending.imp fun hlt => ?_)
    rwa [hg, hg]
  · obtain ⟨s, hs, rfl⟩ := List.mem_map.1 hr
    rw [hg]
    exact h.le_maxCode s hs

/-- Changing the values of the runs changes those of the code points that they cover. -/
theorem Valid.get_map {iv : Intervals α} (h : iv.Valid) {g : Run α → Run α}
    (hg : ∀ r, (g r).start = r.start) {code : Nat} {r : Run α} (hr : Covers iv.runs r code) :
    (⟨iv.runs.map g⟩ : Intervals α).get code = (g r).value := by
  have hcovers : Covers (iv.runs.map g) (g r) code := by
    refine ⟨List.mem_map_of_mem hr.mem, (hg r).symm ▸ hr.start_le, fun s hs hle => ?_⟩
    obtain ⟨t, ht, rfl⟩ := List.mem_map.1 hs
    rw [hg] at hle ⊢
    rw [hg]
    exact hr.latest t ht hle
  exact hcovers.lookup_eq (h.map hg).ascending

theorem Valid.update {iv : Intervals α} (h : iv.Valid) (lo hi : Nat)
    (f : Option α → Option α) : (iv.update lo hi f).Valid := by
  unfold Intervals.update
  split
  · apply ((h.split lo).split (hi + 1)).map
    intro r
    split <;> rfl
  · exact h

/-- A write changes the code points of its range. -/
theorem Valid.get_update {iv : Intervals α} (h : iv.Valid) (lo hi : Nat)
    (f : Option α → Option α) {code : Nat} (hcode : code ≤ maxCode) :
    (iv.update lo hi f).get code =
      if lo ≤ code ∧ code ≤ hi then f (iv.get code) else iv.get code := by
  unfold Intervals.update
  split
  · next hlohi =>
    have hv := (h.split lo).split (hi + 1)
    obtain ⟨r, hr, hget⟩ := hv.covers code
    have hle := hr.start_le
    rw [hv.get_map (fun r => by split <;> rfl) hr]
    rw [(h.split lo).get_split, h.get_split] at hget
    rw [hget]
    -- the cuts make the run of `code` lie within the range exactly if `code` does
    have hiff : (lo ≤ r.start ∧ r.start ≤ hi) ↔ (lo ≤ code ∧ code ≤ hi) := by
      constructor
      · intro hexists
        obtain ⟨hlo, hhi⟩ := hexists
        refine ⟨by omega, ?_⟩
        by_contra hgt
        obtain ⟨s, hs, heq⟩ := (h.split lo).exists_start_split (hi + 1) (by omega)
        have := hr.latest s hs (by omega)
        omega
      · intro hexists
        obtain ⟨hlo, hhi⟩ := hexists
        obtain ⟨s, hs, heq⟩ := h.exists_start_split lo (by omega)
        have := hr.latest s (Valid.mem_split hs _) (by omega)
        omega
    by_cases hin : lo ≤ code ∧ code ≤ hi
    · rw [if_pos hin, if_pos (hiff.2 hin)]
    · rw [if_neg hin, if_neg fun h' => hin (hiff.1 h')]
  · next hlohi =>
    rw [if_neg (by omega)]

theorem Valid.overwrite {iv : Intervals α} (h : iv.Valid) (lo hi : Nat) (a : α) :
    (iv.overwrite lo hi a).Valid :=
  h.update lo hi _

theorem Valid.get_overwrite {iv : Intervals α} (h : iv.Valid) (lo hi : Nat) (a : α) {code : Nat}
    (hcode : code ≤ maxCode) :
    (iv.overwrite lo hi a).get code =
      if lo ≤ code ∧ code ≤ hi then some a else iv.get code :=
  h.get_update lo hi _ hcode

theorem Valid.fillUnset {iv : Intervals α} (h : iv.Valid) (a : α) : (iv.fillUnset a).Valid :=
  h.map fun _ => rfl

theorem Valid.get_fillUnset {iv : Intervals α} (h : iv.Valid) (a : α) (code : Nat) :
    (iv.fillUnset a).get code = some ((iv.get code).getD a) := by
  obtain ⟨r, hr, hget⟩ := h.covers code
  rw [hget]
  exact h.get_map (g := fun r => { r with value := some (r.value.getD a) }) (fun _ => rfl) hr

/-! ## Segments -/

/-- The segments of a row are in order and lie within the code points. -/
theorem segmentsOf_ordered {runs : List (Run α)} (hasc : Ascending runs)
    (hmax : ∀ r ∈ runs, r.start ≤ maxCode) :
    (∀ s ∈ segmentsOf runs, s.lo ≤ s.hi ∧ s.hi ≤ maxCode ∧ ∃ r ∈ runs, r.start = s.lo) ∧
      (segmentsOf runs).Pairwise fun s t => s.hi < t.lo := by
  fun_induction segmentsOf runs with
  | case1 => exact ⟨fun _ h => absurd h List.not_mem_nil, List.Pairwise.nil⟩
  | case2 r =>
    refine ⟨fun s hs => ?_, List.pairwise_singleton _ _⟩
    rw [List.mem_singleton.1 hs]
    exact ⟨hmax r (List.mem_singleton.2 rfl), Nat.le_refl _, r, List.mem_singleton.2 rfl, rfl⟩
  | case3 r next rest ih =>
    obtain ⟨hmem, hpair⟩ := ih hasc.tail fun s hs => hmax s (List.mem_cons_of_mem _ hs)
    have hlt := hasc.head_lt next (List.mem_cons_self ..)
    have hnext := hmax next (by simp)
    refine ⟨fun s hs => ?_, List.pairwise_cons.2 ⟨fun s hs => ?_, hpair⟩⟩
    · rcases List.mem_cons.1 hs with rfl | hs
      · exact ⟨by simp only; omega, by simp only; omega, r, List.mem_cons_self .., rfl⟩
      · obtain ⟨h1, h2, q, hq, heq⟩ := hmem s hs
        exact ⟨h1, h2, q, List.mem_cons_of_mem _ hq, heq⟩
    · obtain ⟨-, -, q, hq, heq⟩ := hmem s hs
      have := hasc.tail.head_le q hq
      simp only
      omega

/-- A code point that the row has reached is in a segment with its value. -/
theorem exists_segmentOf {runs : List (Run α)} (hasc : Ascending runs) {code : Nat}
    (hcode : code ≤ maxCode) (hfirst : ∃ r ∈ runs.head?, r.start ≤ code) :
    ∃ s ∈ segmentsOf runs, s.lo ≤ code ∧ code ≤ s.hi ∧ s.value = lookup runs code := by
  fun_induction segmentsOf runs with
  | case1 => simp at hfirst
  | case2 r =>
    have hle : r.start ≤ code := by simpa using hfirst
    exact ⟨_, List.mem_singleton.2 rfl, hle, hcode, (lookup_single hle).symm⟩
  | case3 r next rest ih =>
    have hle : r.start ≤ code := by simpa using hfirst
    by_cases hnext : next.start ≤ code
    · obtain ⟨s, hs, hlo, hhi, hval⟩ := ih hasc.tail (by simpa using hnext)
      exact ⟨s, List.mem_cons_of_mem _ hs, hlo, hhi, by
        rw [hval, lookup_cons_of_le hle hnext]⟩
    · exact ⟨_, List.mem_cons_self .., hle, by simp only; omega, by
        rw [lookup_cons_of_lt hle (by omega)]⟩

theorem Valid.segments_ordered {iv : Intervals α} (h : iv.Valid) :
    (∀ s ∈ iv.segments, s.lo ≤ s.hi ∧ s.hi ≤ maxCode) ∧
      iv.segments.Pairwise fun s t => s.hi < t.lo := by
  obtain ⟨hmem, hpair⟩ := segmentsOf_ordered h.ascending h.le_maxCode
  exact ⟨fun s hs => ⟨(hmem s hs).1, (hmem s hs).2.1⟩, hpair⟩

/-- The segments cover every code point, with the value it has. -/
theorem Valid.exists_segment {iv : Intervals α} (h : iv.Valid) (code : Nat)
    (hcode : code ≤ maxCode) :
    ∃ s ∈ iv.segments, s.lo ≤ code ∧ code ≤ s.hi ∧ s.value = iv.get code := by
  apply exists_segmentOf h.ascending hcode
  obtain ⟨first, hfirst, hzero⟩ := h.starts_at_zero
  have hasc := h.ascending
  cases hruns : iv.runs with
  | nil => rw [hruns] at hfirst; cases hfirst
  | cons r rest =>
    rw [hruns] at hfirst hasc
    refine ⟨r, rfl, ?_⟩
    rcases List.mem_cons.1 hfirst with rfl | hfirst
    · omega
    · have := hasc.head_lt first hfirst
      omega

/-- A segment has the value of each of its code points. -/
theorem Valid.value_eq_get {iv : Intervals α} (h : iv.Valid) {s : Segment α}
    (hs : s ∈ iv.segments) {code : Nat} (hlo : s.lo ≤ code) (hhi : code ≤ s.hi) :
    s.value = iv.get code := by
  obtain ⟨hmem, hpair⟩ := h.segments_ordered
  obtain ⟨t, ht, htlo, hthi, hval⟩ := h.exists_segment code
    (by have := (hmem s hs).2; omega)
  rw [eq_of_between hpair hs ht ⟨hlo, hhi⟩ ⟨htlo, hthi⟩, hval]

/-! ## Partitions by target state -/

theorem Segment.transition?_eq_some {s : Segment Nat} {t : Transition} :
    s.transition? = some t ↔
      s.value = some t.target ∧ CharRange.ofCodes? s.lo s.hi = some t.toCharRange := by
  unfold Segment.transition?
  constructor
  · intro h
    split at h
    · next target range hv hr =>
      cases h
      exact ⟨hv, hr⟩
    · cases h
  · intro h'
    obtain ⟨hv, hr⟩ := h'
    rw [hv, hr]

/-- The transitions of segments in order are in order. -/
theorem Segment.sorted_transitions {segments : List (Segment Nat)}
    (hpair : segments.Pairwise fun s t => s.hi < t.lo) :
    Transition.Sorted (segments.filterMap Segment.transition?) := by
  constructor
  · apply hpair.filterMap _
    intro s s' hlt t ht t' ht'
    rw [Segment.transition?_eq_some] at ht ht'
    have hle := CharRange.le_of_ofCodes? ht.2
    have hle' := CharRange.le_of_ofCodes? ht'.2
    omega
  · intro t ht
    obtain ⟨s, -, hst⟩ := List.mem_filterMap.1 ht
    exact (CharRange.le_of_ofCodes? (Segment.transition?_eq_some.1 hst).2).2.2

/-- The transitions of segments lead a character where the segment around its code point does. -/
theorem Segment.leads_transitions {segments : List (Segment Nat)}
    (hmax : ∀ s ∈ segments, s.hi ≤ maxCode) {c : Char} {q : Nat} :
    Transition.Leads (segments.filterMap Segment.transition?) c q ↔
      ∃ s ∈ segments, s.lo ≤ c.toNat ∧ c.toNat ≤ s.hi ∧ s.value = some q := by
  constructor
  · intro h'
    obtain ⟨t, ht, htc, rfl⟩ := h'
    obtain ⟨s, hs, hst⟩ := List.mem_filterMap.1 ht
    obtain ⟨hval, hrange⟩ := Segment.transition?_eq_some.1 hst
    obtain ⟨hlo, hhi⟩ := (CharRange.contains_of_ofCodes? hrange).1 htc
    exact ⟨s, hs, hlo, hhi, hval⟩
  · intro h'
    obtain ⟨s, hs, hlo, hhi, hval⟩ := h'
    rcases hrange : CharRange.ofCodes? s.lo s.hi with _ | range
    · exact absurd ⟨hlo, hhi⟩ (CharRange.not_between_of_ofCodes? (hmax s hs) hrange c)
    · refine ⟨⟨range, q⟩, List.mem_filterMap.2 ⟨s, hs, ?_⟩, ?_, rfl⟩
      · exact Segment.transition?_eq_some.2 ⟨hval, hrange⟩
      · exact (CharRange.contains_of_ofCodes? hrange).2 ⟨hlo, hhi⟩

theorem sorted_toTransitions {iv : Intervals Nat} (h : iv.Valid) :
    Transition.Sorted iv.toTransitions :=
  Transition.sorted_join (Segment.sorted_transitions h.segments_ordered.2)

/-- The transitions of a partition lead a character where its code point is sent. -/
theorem leads_toTransitions {iv : Intervals Nat} (h : iv.Valid) {c : Char} {q : Nat} :
    Transition.Leads iv.toTransitions c q ↔ iv.get c.toNat = some q := by
  obtain ⟨hmem, hpair⟩ := h.segments_ordered
  rw [toTransitions, Transition.leads_join (Segment.sorted_transitions hpair),
    Segment.leads_transitions fun s hs => (hmem s hs).2]
  constructor
  · intro h'
    obtain ⟨s, hs, hlo, hhi, hval⟩ := h'
    rw [← h.value_eq_get hs hlo hhi, hval]
  · intro hget
    obtain ⟨s, hs, hlo, hhi, hval⟩ := h.exists_segment _ (Char.toNat_le_maxCode c)
    exact ⟨s, hs, hlo, hhi, hval.trans hget⟩

theorem valid_foldl_overwrite (ts : List Transition) {init : Intervals Nat} (h : init.Valid) :
    (ts.foldl (fun iv t => iv.overwrite t.lo.toNat t.hi.toNat t.target) init).Valid := by
  induction ts generalizing init with
  | nil => exact h
  | cons t ts ih => exact ih (h.overwrite _ _ _)

/-- Where the entries lead nowhere, what was written before them stays. -/
theorem get_foldl_overwrite {ts : List Transition} (h : Transition.Sorted ts)
    {init : Intervals Nat} (hv : init.Valid) {c : Char} {q : Nat} :
    (ts.foldl (fun iv t => iv.overwrite t.lo.toNat t.hi.toNat t.target) init).get c.toNat =
      some q ↔ Transition.Leads ts c q ∨
        init.get c.toNat = some q ∧ ∀ p, ¬Transition.Leads ts c p := by
  induction ts generalizing init with
  | nil => simp [Transition.leads_nil]
  | cons t ts ih =>
    rw [List.foldl_cons, ih h.tail (hv.overwrite _ _ _),
      hv.get_overwrite _ _ _ (Char.toNat_le_maxCode c), Transition.leads_cons]
    by_cases htc : t.contains c = true
    · -- no later entry writes over the one around `c`
      have hnone : ∀ p, ¬Transition.Leads ts c p := by
        intro p hp
        obtain ⟨u, hu, huc, -⟩ := hp
        have hlt := (List.pairwise_cons.1 h.pairwise).1 u hu
        rw [CharRange.contains_iff] at htc huc
        omega
      rw [if_pos (CharRange.contains_iff.1 htc)]
      simp [htc, hnone, Transition.leads_cons]
    · rw [if_neg fun h' => htc (CharRange.contains_iff.2 h')]
      simp [htc, Transition.leads_cons]

theorem valid_ofTransitions (ts : List Transition) : (ofTransitions ts).Valid :=
  valid_foldl_overwrite ts valid_unset

/-- Staging a sorted list gives each code point the target of the entry around it. -/
theorem get_ofTransitions {ts : List Transition} (h : Transition.Sorted ts) {c : Char} {q : Nat} :
    (ofTransitions ts).get c.toNat = some q ↔ Transition.Leads ts c q := by
  rw [ofTransitions, get_foldl_overwrite h valid_unset, get_unset]
  simp

end Intervals

end LongestMatch
