import LongestMatch.Columns
import LongestMatch.Proofs.Partition

/-!
# The columns of a partition

`Columns.of iv` stores the partition `iv` in two columns. If `iv` is valid, then every operation on
the columns goes through, with all of its indices in range, and is the operation on the partition.

* `split_of`, `isolate_of` — a split finds the number of runs before the code point as its index,
  and the second of two splits does not move the index that the first one gave.
* `get_of`, `update_of` — looking up and updating.
* `Tiles`, `segments_ofSegments` — segments that lie end to end, as those of a valid partition do,
  are what columns list.
-/

namespace LongestMatch

variable {α : Type}

/-! ## Access by index -/

theorem insertAt?_append {β : Type} (front back : List β) (a : β) :
    insertAt? front.length a (front ++ back) = some (front ++ a :: back) := by
  have hinsert : (front ++ back).insertIdx front.length a = front ++ a :: back := by
    induction front with
    | nil => rfl
    | cons b front ih => exact congrArg (b :: ·) ih
  rw [insertAt?, if_pos (by simp), hinsert]

/-- A list is read back entry by entry. -/
theorem mapM_range_eq_some {β : Type} {f : Nat → Option β} {l : List β}
    (h : ∀ (i : Nat) (hi : i < l.length), f i = some l[i]) :
    (List.range l.length).mapM f = some l := by
  induction l generalizing f with
  | nil => rfl
  | cons b l ih =>
    have hhead : f 0 = some b := h 0 (Nat.zero_lt_succ _)
    have htail := ih (f := f ∘ Nat.succ) fun i hi => h (i + 1) (Nat.succ_lt_succ hi)
    rw [List.length_cons, List.range_succ_eq_map, List.mapM_cons, List.mapM_map, hhead, htail]
    rfl

/-! ## Runs before and behind a code point -/

/-- The runs that start before a code point and those that do not. -/
structure Parted (code : Nat) (front back : List (Run α)) : Prop where
  lt : ∀ r ∈ front, r.start < code
  le : ∀ r ∈ back, code ≤ r.start

theorem exists_parted {runs : List (Run α)} (hasc : Intervals.Ascending runs) (code : Nat) :
    ∃ front back, runs = front ++ back ∧ Parted code front back := by
  induction runs with
  | nil => exact ⟨[], [], rfl, by simp, by simp⟩
  | cons r rest ih =>
    by_cases hlt : r.start < code
    · obtain ⟨front, back, rfl, hparted⟩ := ih hasc.tail
      exact ⟨r :: front, back, rfl, List.forall_mem_cons.2 ⟨hlt, hparted.lt⟩, hparted.le⟩
    · refine ⟨[], r :: rest, rfl, by simp, fun s hs => ?_⟩
      have := hasc.head_le s hs
      omega

theorem exists_cons_of_head? {code : Nat} {back : List (Run α)}
    (h : (back.map Run.start).head? = some code) : ∃ r rest, back = r :: rest ∧ r.start = code := by
  cases back with
  | nil => simp at h
  | cons r back => exact ⟨r, back, rfl, by simpa using h⟩

/-- Unless a run starts at the code point, the runs behind start after it. -/
theorem Parted.lt_back {code : Nat} {front back : List (Run α)} (h : Parted code front back)
    (hasc : Intervals.Ascending back) (hne : ¬∃ r rest, back = r :: rest ∧ r.start = code) :
    ∀ s ∈ back, code < s.start := by
  cases back with
  | nil => simp
  | cons r back =>
    intro s hs
    have hr : r.start ≠ code := fun hr => hne ⟨r, back, rfl, hr⟩
    have hle := h.le r (List.mem_cons_self ..)
    have := hasc.head_le s hs
    omega

namespace Intervals

theorem Ascending.le_last {init back : List (Run α)} {last : Run α}
    (h : Ascending (init ++ [last] ++ back)) : ∀ s ∈ init ++ [last], s.start ≤ last.start := by
  intro s hs
  rcases List.mem_append.1 hs with hs | hs
  · exact Nat.le_of_lt ((List.pairwise_append.1 (List.pairwise_append.1 h).1).2.2 s hs last
      (List.mem_singleton.2 rfl))
  · obtain rfl := List.mem_singleton.1 hs
    exact Nat.le_refl _

theorem cut_cons_of_le {code : Nat} {r next : Run α} {rest : List (Run α)}
    (h : next.start ≤ code) : cut code (r :: next :: rest) = r :: cut code (next :: rest) := by
  rw [cut, if_neg (by omega)]

/-- A cut before all of the runs changes nothing. -/
theorem cut_of_forall_le {code : Nat} {runs : List (Run α)} (h : ∀ s ∈ runs, code ≤ s.start) :
    cut code runs = runs := by
  fun_induction cut code runs with
  | case1 => rfl
  | case2 r hlt =>
    have := h r (List.mem_cons_self ..)
    omega
  | case3 r hlt => rfl
  | case4 r next rest hlt =>
    have := h r (List.mem_cons_self ..)
    omega
  | case5 r next rest hlt ih => rw [ih fun s hs => h s (List.mem_cons_of_mem _ hs)]

/-- A cut where a run starts changes nothing. -/
theorem cut_append_of_start {code : Nat} {front back : List (Run α)} {r : Run α}
    (h : Parted code front (r :: back)) (hr : r.start = code) :
    cut code (front ++ r :: back) = front ++ r :: back := by
  obtain ⟨hlt, hle⟩ := h
  induction front with
  | nil => exact cut_of_forall_le hle
  | cons f front ih =>
    have ih := ih fun s hs => hlt s (List.mem_cons_of_mem _ hs)
    cases front with
    | nil =>
      rw [List.cons_append, List.nil_append, cut_cons_of_le (by omega)]
      exact congrArg (f :: ·) ih
    | cons next front =>
      have hnext := hlt next (by simp)
      rw [List.cons_append, List.cons_append, cut_cons_of_le (by omega)]
      exact congrArg (f :: ·) ih

/-- A cut within the run of `last` puts a new run with its value behind it. -/
theorem cut_append_of_lt {code : Nat} {front back : List (Run α)} {last : Run α}
    (hlt : ∀ s ∈ front ++ [last], s.start < code) (hback : ∀ s ∈ back, code < s.start) :
    cut code (front ++ last :: back) = front ++ last :: ⟨code, last.value⟩ :: back := by
  induction front with
  | nil =>
    have hlast := hlt last (by simp)
    cases back with
    | nil => simp [cut, hlast]
    | cons next back =>
      have := hback next (by simp)
      simp [cut, hlast, this]
  | cons f front ih =>
    have ih := ih fun s hs => hlt s (List.mem_cons_of_mem _ hs)
    cases front with
    | nil =>
      have hlast := hlt last (by simp)
      rw [List.cons_append, List.nil_append, cut_cons_of_le (by omega)]
      exact congrArg (f :: ·) ih
    | cons next front =>
      have hnext := hlt next (by simp)
      rw [List.cons_append, List.cons_append, cut_cons_of_le (by omega)]
      exact congrArg (f :: ·) ih

end Intervals

/-- Unless a run starts at the code point, there is a last run before, as the first one starts
at 0. -/
theorem Intervals.Valid.exists_concat {front back : List (Run α)}
    (h : Valid ⟨front ++ back⟩) {code : Nat} (hlt : ∀ s ∈ back, code < s.start) :
    ∃ init last, front = init ++ [last] := by
  rcases List.eq_nil_or_concat front with rfl | ⟨init, last, rfl⟩
  · obtain ⟨first, hfirst, hzero⟩ := h.starts_at_zero
    have := hlt first hfirst
    omega
  · exact ⟨init, last, List.concat_eq_append⟩

/-- A search in the starts stops where the runs part. -/
theorem Parted.search_eq {code : Nat} {front back : List (Run α)} (h : Parted code front back) :
    search ((front ++ back).map Run.start) code =
      if (back.map Run.start).head? = some code then .ok front.length else .error front.length := by
  have htake : ((front ++ back).map Run.start).takeWhile (· < code) = front.map Run.start := by
    rw [List.map_append, List.takeWhile_append_of_pos (by simpa using h.lt)]
    cases back with
    | nil => simp
    | cons r back =>
      have := h.le r (List.mem_cons_self ..)
      simp [Nat.not_lt.2 this]
  have hhead : ((front ++ back).map Run.start)[front.length]? = (back.map Run.start).head? := by
    rw [List.map_append, List.getElem?_append_right (by simp), List.length_map, Nat.sub_self,
      List.head?_eq_getElem?]
  unfold search
  simp only [htake, List.length_map, hhead]

namespace Columns

/-- The columns of a partition. -/
def of (iv : Intervals α) : Columns α :=
  ⟨iv.runs.map Run.start, iv.runs.map Run.value⟩

theorem of_eq {runs : List (Run α)} : of ⟨runs⟩ = ⟨runs.map Run.start, runs.map Run.value⟩ :=
  rfl

/-- Where a run starts already, the columns are left as they are. -/
theorem split_of_start {code : Nat} (hmax : code ≤ maxCode) {front back : List (Run α)} {r : Run α}
    (h : Parted code front (r :: back)) (hr : r.start = code) :
    (of ⟨front ++ r :: back⟩).split code = some (front.length, of ⟨front ++ r :: back⟩) := by
  rw [split, if_pos hmax, of_eq, h.search_eq, if_pos (by simp [hr])]

/-- Within a run, a new start goes into the columns behind the one of the run. -/
theorem split_of_lt {code : Nat} (hmax : code ≤ maxCode) {front back : List (Run α)} {last : Run α}
    (h : Parted code (front ++ [last]) back) (hback : ∀ s ∈ back, code < s.start) :
    (of ⟨front ++ [last] ++ back⟩).split code =
      some ((front ++ [last]).length, of ⟨front ++ [last] ++ ⟨code, last.value⟩ :: back⟩) := by
  have hhead : (back.map Run.start).head? ≠ some code := by
    cases back with
    | nil => simp
    | cons r back =>
      have := hback r (List.mem_cons_self ..)
      simp
      omega
  have hvalue : ((front ++ [last] ++ back).map Run.value)[front.length]? = some last.value := by
    simp
  have hstarts := insertAt?_append ((front ++ [last]).map Run.start) (back.map Run.start) code
  have hvalues := insertAt?_append ((front ++ [last]).map Run.value) (back.map Run.value) last.value
  rw [List.length_map] at hstarts hvalues
  rw [split, if_pos hmax, of_eq, h.search_eq, if_neg hhead]
  simp only [List.length_append, List.length_singleton, ← List.map_append] at hstarts hvalues ⊢
  simp only [before?, hvalue, hstarts, hvalues, Option.bind_eq_bind, Option.bind_some,
    Option.pure_def]
  simp [of]

/-- There is no start behind the code points, however far behind. -/
theorem split_behind (cols : Columns α) (hi : Nat) :
    cols.split (behind hi) = cols.split (hi + 1) := by
  by_cases hmax : hi + 1 ≤ maxBound
  · rw [behind, Nat.min_eq_left hmax]
  · have hbehind : ¬behind hi ≤ maxCode := by
      rw [behind, Nat.min_eq_right (by omega)]
      decide
    have hbound : maxCode ≤ maxBound := by decide
    rw [split, split, if_neg hbehind, if_neg (by omega)]

/-- Splitting the columns of a partition is splitting the partition, and the index found is the
number of runs before. -/
theorem split_of {iv : Intervals α} (h : iv.Valid) {code : Nat} {front back : List (Run α)}
    (hruns : iv.runs = front ++ back) (hparted : Parted code front back) :
    ∃ back', (iv.split code).runs = front ++ back' ∧ Parted code front back' ∧
      (of iv).split code = some (front.length, of (iv.split code)) := by
  obtain ⟨runs⟩ := iv
  obtain rfl : runs = front ++ back := hruns
  by_cases hmax : code ≤ maxCode
  · rw [Intervals.split, if_pos hmax]
    by_cases hstart : ∃ r rest, back = r :: rest ∧ r.start = code
    · obtain ⟨r, rest, rfl, hr⟩ := hstart
      rw [Intervals.cut_append_of_start hparted hr]
      exact ⟨r :: rest, rfl, hparted, split_of_start hmax hparted hr⟩
    · -- the code point lies within the last run before
      have hlt := hparted.lt_back (List.pairwise_append.1 h.ascending).2.1 hstart
      obtain ⟨init, last, rfl⟩ := h.exists_concat hlt
      have hcut : Intervals.cut code (init ++ [last] ++ back) =
          init ++ [last] ++ ⟨code, last.value⟩ :: back := by
        simpa using Intervals.cut_append_of_lt hparted.lt hlt
      rw [hcut]
      refine ⟨_, rfl, ⟨hparted.lt, ?_⟩, split_of_lt hmax hparted hlt⟩
      exact List.forall_mem_cons.2 ⟨Nat.le_refl _, hparted.le⟩
  · have hback : back = [] := by
      refine List.eq_nil_iff_forall_not_mem.2 fun r hr => ?_
      have hle := hparted.le r hr
      have := h.le_maxCode r (List.mem_append_right _ hr)
      omega
    subst hback
    rw [Intervals.split, if_neg hmax]
    refine ⟨[], rfl, hparted, ?_⟩
    simp [split, hmax, of]

/-- A value is found where the partition has it. -/
theorem get_of {iv : Intervals α} (h : iv.Valid) (code : Nat) :
    (of iv).get code = some (iv.get code) := by
  obtain ⟨runs⟩ := iv
  obtain ⟨front, back, hruns, hparted⟩ := exists_parted h.ascending code
  obtain rfl : runs = front ++ back := hruns
  by_cases hstart : ∃ r rest, back = r :: rest ∧ r.start = code
  · obtain ⟨r, rest, rfl, hr⟩ := hstart
    have hcovers : Intervals.Covers (front ++ r :: rest) r code :=
      ⟨by simp, by omega, fun s hs hle => by omega⟩
    rw [Intervals.get_eq_lookup, hcovers.lookup_eq h.ascending, get, of_eq, hparted.search_eq,
      if_pos (by simp [hr])]
    simp
  · have hlt := hparted.lt_back (List.pairwise_append.1 h.ascending).2.1 hstart
    obtain ⟨init, last, rfl⟩ := h.exists_concat hlt
    have hlast := hparted.lt last (by simp)
    have hcovers : Intervals.Covers (init ++ [last] ++ back) last code := by
      refine ⟨by simp, Nat.le_of_lt hlast, fun s hs hle => ?_⟩
      rcases List.mem_append.1 hs with hs | hs
      · exact h.ascending.le_last s hs
      · have := hlt s hs
        omega
    rw [Intervals.get_eq_lookup, hcovers.lookup_eq h.ascending, get, of_eq, hparted.search_eq,
      if_neg fun hhead => hstart (exists_cons_of_head? hhead)]
    simp [before?]

/-- The columns of a partition isolate a range as two splits of the partition do. -/
theorem isolate_of {iv : Intervals α} (h : iv.Valid) {lo hi : Nat} (hle : lo ≤ hi) :
    ∃ front inside back, (iv.split lo).split (hi + 1) = ⟨front ++ inside ++ back⟩ ∧
      (∀ r ∈ front, r.start < lo) ∧ (∀ r ∈ inside, lo ≤ r.start ∧ r.start ≤ hi) ∧
      (∀ r ∈ back, hi < r.start) ∧
      (of iv).isolate lo hi =
        some (front.length, (front ++ inside).length, of ⟨front ++ inside ++ back⟩) := by
  obtain ⟨front, back, hruns, hparted⟩ := exists_parted h.ascending lo
  obtain ⟨back₁, hruns₁, hparted₁, hsplit₁⟩ := split_of h hruns hparted
  have hasc₁ := (h.split lo).ascending
  rw [hruns₁] at hasc₁
  obtain ⟨inside, back₂, rfl, hparted₂⟩ :=
    exists_parted (List.pairwise_append.1 hasc₁).2.1 (hi + 1)
  have hlo : ∀ r ∈ inside, lo ≤ r.start := fun r hr => hparted₁.le r (List.mem_append_left _ hr)
  have hhi : ∀ r ∈ front ++ inside, r.start < hi + 1 := by
    intro r hr
    rcases List.mem_append.1 hr with hr | hr
    · have := hparted.lt r hr
      omega
    · exact hparted₂.lt r hr
  obtain ⟨back₃, hruns₃, hparted₃, hsplit₃⟩ :=
    split_of (h.split lo) (hruns₁.trans (List.append_assoc ..).symm) ⟨hhi, hparted₂.le⟩
  have hsplit : (iv.split lo).split (hi + 1) = ⟨front ++ inside ++ back₃⟩ :=
    congrArg Intervals.mk hruns₃
  refine ⟨front, inside, back₃, hsplit, hparted.lt,
    fun r hr => ⟨hlo r hr, Nat.le_of_lt_succ (hparted₂.lt r hr)⟩, hparted₃.le, ?_⟩
  have hlength : (front ++ inside).length ≤ (of ⟨front ++ inside ++ back₃⟩).values.length := by
    simp [of]
  rw [isolate, hsplit₁]
  simp only [Option.bind_eq_bind, Option.bind_some, split_behind, hsplit₃, hsplit]
  rw [if_pos ⟨by simp, hlength⟩]
  rfl

/-! ## Visits -/

/-- A visit from the first index behind `front` up to the one behind `inside` runs over `inside`. -/
theorem visit_append {m : Type → Type} [Monad m] [LawfulMonad m] (starts : List Nat)
    (front inside back : List (Option α)) (f : Option α → m (Option α)) :
    (⟨starts, front ++ inside ++ back⟩ : Columns α).visit front.length (front ++ inside).length f =
      (fun changed => ⟨starts, front ++ changed ++ back⟩) <$> inside.mapM f := by
  have hslice : ((front ++ inside ++ back).take (front ++ inside).length).drop front.length =
      inside := by
    rw [List.take_left, List.drop_left]
  have hfront : (front ++ inside ++ back).take front.length = front := by
    rw [List.append_assoc, List.take_left]
  have hback : (front ++ inside ++ back).drop (front ++ inside).length = back :=
    List.drop_left
  simp only [visit, hslice, hfront, hback, map_eq_pure_bind]

/-- Updating the columns of a partition is updating the partition. -/
theorem update_of {iv : Intervals α} (h : iv.Valid) (lo hi : Nat) (f : Option α → Option α) :
    Id.run <$> (of iv).update lo hi (fun v => pure (f v)) = some (of (iv.update lo hi f)) := by
  unfold update Intervals.update
  by_cases hle : lo ≤ hi
  · obtain ⟨front, inside, back, hsplit, hfront, hinside, hback, hisolate⟩ := isolate_of h hle
    have hchanged : (front ++ inside ++ back).map (fun r =>
          if lo ≤ r.start ∧ r.start ≤ hi then { r with value := f r.value } else r) =
        front ++ inside.map (fun r => { r with value := f r.value }) ++ back := by
      rw [List.map_append, List.map_append,
        List.map_congr_left fun r hr => if_neg (by have := hfront r hr; omega),
        List.map_congr_left fun r hr => if_pos (hinside r hr),
        List.map_congr_left (l := back) fun r hr => if_neg (by have := hback r hr; omega),
        List.map_id', List.map_id']
    rw [if_pos hle, if_pos hle, hisolate, hsplit, hchanged]
    have hvisit := visit_append ((front ++ inside ++ back).map Run.start) (front.map Run.value)
      (inside.map Run.value) (back.map Run.value) fun v => (pure (f v) : Id (Option α))
    rw [← List.map_append, ← List.map_append, List.length_map, List.length_map] at hvisit
    simp only [Option.bind_eq_bind, Option.bind_some, Option.pure_def, Option.map_eq_map,
      Option.map_some, of_eq, hvisit, List.mapM_pure, List.map_map]
    simp [Function.comp_def]
  · rw [if_neg hle, if_neg hle]
    rfl

end Columns

/-! ## Segments end to end -/

/-- The segments lie end to end, without gaps, from the code point `first` up to the greatest one.
-/
def Tiles : Nat → List (Segment α) → Prop
  | first, [] => first = maxCode + 1
  | first, s :: rest => s.lo = first ∧ s.lo ≤ s.hi ∧ Tiles (s.hi + 1) rest

/-- Whether segments lie end to end is a matter of their bounds. -/
theorem Tiles.congr {first : Nat} {segments segments' : List (Segment α)}
    (h : Tiles first segments)
    (hbounds : segments'.map (fun s => (s.lo, s.hi)) = segments.map fun s => (s.lo, s.hi)) :
    Tiles first segments' := by
  induction segments generalizing first segments' with
  | nil =>
    rw [List.map_eq_nil_iff.1 hbounds]
    exact h
  | cons s rest ih =>
    obtain ⟨s', rest', rfl, hs, hrest'⟩ := List.map_eq_cons_iff.1 hbounds
    obtain ⟨hlo, hhi⟩ : s'.lo = s.lo ∧ s'.hi = s.hi := Prod.mk.inj hs
    obtain ⟨hfirst, hle, hrest⟩ := h
    exact ⟨hlo.trans hfirst, by omega, hhi ▸ ih hrest hrest'⟩

theorem Tiles.le {first : Nat} {segments : List (Segment α)} (h : Tiles first segments) :
    first ≤ maxCode + 1 ∧ ∀ s ∈ segments, first ≤ s.lo ∧ s.hi ≤ maxCode := by
  induction segments generalizing first with
  | nil => exact ⟨Nat.le_of_eq h, by simp⟩
  | cons s rest ih =>
    obtain ⟨rfl, hle, hrest⟩ := h
    obtain ⟨hfirst, hmem⟩ := ih hrest
    refine ⟨by omega, List.forall_mem_cons.2 ⟨⟨Nat.le_refl _, by omega⟩, fun t ht => ?_⟩⟩
    have := hmem t ht
    omega

theorem Tiles.lo_le_hi {first : Nat} {segments : List (Segment α)} (h : Tiles first segments) :
    ∀ s ∈ segments, s.lo ≤ s.hi := by
  induction segments generalizing first with
  | nil => simp
  | cons s rest ih => exact List.forall_mem_cons.2 ⟨h.2.1, ih h.2.2⟩

theorem Tiles.pairwise {first : Nat} {segments : List (Segment α)} (h : Tiles first segments) :
    segments.Pairwise fun s t => s.lo < t.lo := by
  induction segments generalizing first with
  | nil => exact List.Pairwise.nil
  | cons s rest ih =>
    obtain ⟨-, hle, hrest⟩ := h
    refine List.pairwise_cons.2 ⟨fun t ht => ?_, ih hrest⟩
    have := (hrest.le.2 t ht).1
    omega

/-- Each code point from the first one on is in exactly one of the segments. -/
theorem Tiles.existsUnique {first : Nat} {segments : List (Segment α)} (h : Tiles first segments)
    {code : Nat} (hfirst : first ≤ code) (hcode : code ≤ maxCode) :
    ∃! s, s ∈ segments ∧ s.lo ≤ code ∧ code ≤ s.hi := by
  induction segments generalizing first with
  | nil =>
    have : first = maxCode + 1 := h
    omega
  | cons s rest ih =>
    obtain ⟨rfl, hle, hrest⟩ := h
    by_cases hhi : code ≤ s.hi
    · refine ⟨s, ⟨List.mem_cons_self .., hfirst, hhi⟩, fun t ht => ?_⟩
      rcases List.mem_cons.1 ht.1 with rfl | hmem
      · rfl
      · have := (hrest.le.2 t hmem).1
        omega
    · obtain ⟨t, ht, hunique⟩ := ih hrest (by omega)
      refine ⟨t, ⟨List.mem_cons_of_mem _ ht.1, ht.2⟩, fun u hu => ?_⟩
      rcases List.mem_cons.1 hu.1 with rfl | hmem
      · omega
      · exact hunique u ⟨hmem, hu.2⟩

/-- Where one segment starts, those that start before it have ended. -/
theorem Tiles.hi_lt {segments : List (Segment α)} (h : Tiles 0 segments) {s t : Segment α}
    (hs : s ∈ segments) (ht : t ∈ segments) (hlt : s.lo < t.lo) : s.hi < t.lo := by
  by_contra hge
  have hmax := (h.le.2 s hs).2
  obtain ⟨u, -, hunique⟩ := h.existsUnique (Nat.zero_le t.lo) (by omega)
  have hsu := hunique s ⟨hs, by omega, by omega⟩
  have htu := hunique t ⟨ht, Nat.le_refl _, h.lo_le_hi t ht⟩
  rw [hsu, ← htu] at hlt
  omega

/-- The segments from one of them on. -/
theorem Tiles.drop {first : Nat} {segments : List (Segment α)} (h : Tiles first segments) {i : Nat}
    (hi : i < segments.length) : Tiles (segments[i].hi + 1) (segments.drop (i + 1)) := by
  induction segments generalizing first i with
  | nil => cases hi
  | cons s rest ih =>
    obtain ⟨-, -, hrest⟩ := h
    cases i with
    | zero => exact hrest
    | succ i => exact ih hrest (Nat.lt_of_succ_lt_succ hi)

namespace Intervals

theorem tiles_segmentsOf {r : Run α} {rest : List (Run α)} (hasc : Ascending (r :: rest))
    (hmax : ∀ s ∈ r :: rest, s.start ≤ maxCode) : Tiles r.start (segmentsOf (r :: rest)) := by
  induction rest generalizing r with
  | nil => exact ⟨rfl, hmax r (List.mem_cons_self ..), rfl⟩
  | cons next rest ih =>
    have hlt := hasc.head_lt next (List.mem_cons_self ..)
    have hrest := ih hasc.tail fun s hs => hmax s (List.mem_cons_of_mem _ hs)
    refine ⟨rfl, Nat.le_sub_one_of_lt hlt, ?_⟩
    have hstart : next.start - 1 + 1 = next.start := by omega
    rwa [hstart]

/-- The segments of a partition lie end to end. -/
theorem Valid.tiles {iv : Intervals α} (h : iv.Valid) : Tiles 0 iv.segments := by
  obtain ⟨runs⟩ := iv
  have hasc : Ascending runs := h.ascending
  obtain ⟨first, hfirst, hzero⟩ := h.starts_at_zero
  cases runs with
  | nil => cases hfirst
  | cons r rest =>
    have hr : r.start = 0 := by
      have := hasc.head_le first hfirst
      omega
    exact hr ▸ tiles_segmentsOf hasc h.le_maxCode

theorem map_lo_segmentsOf (runs : List (Run α)) :
    (segmentsOf runs).map Segment.lo = runs.map Run.start := by
  fun_induction segmentsOf runs with
  | case1 => rfl
  | case2 r => rfl
  | case3 r next rest ih => exact congrArg (_ :: ·) ih

/-- The segments of three rows of runs, one row after the other. -/
theorem exists_segmentsOf_append (front inner back : List (Run α)) :
    ∃ before inside behind, segmentsOf (front ++ inner ++ back) = before ++ inside ++ behind ∧
      before.map Segment.lo = front.map Run.start ∧ inside.map Segment.lo = inner.map Run.start ∧
      behind.map Segment.lo = back.map Run.start := by
  have hmap := map_lo_segmentsOf (front ++ inner ++ back)
  rw [List.map_append, List.map_eq_append_iff] at hmap
  obtain ⟨initial, behind, hsegments, hinitial, hbehind⟩ := hmap
  rw [List.map_append, List.map_eq_append_iff] at hinitial
  obtain ⟨before, inside, rfl, hbefore, hinside⟩ := hinitial
  exact ⟨before, inside, behind, hsegments, hbefore, hinside, hbehind⟩

theorem map_value_segmentsOf (runs : List (Run α)) :
    (segmentsOf runs).map Segment.value = runs.map Run.value := by
  fun_induction segmentsOf runs with
  | case1 => rfl
  | case2 r => rfl
  | case3 r next rest ih => exact congrArg (_ :: ·) ih

end Intervals

namespace Columns

/-- The columns of a row of segments. -/
def ofSegments (segments : List (Segment α)) : Columns α :=
  ⟨segments.map Segment.lo, segments.map Segment.value⟩

theorem of_eq_ofSegments (iv : Intervals α) : of iv = ofSegments iv.segments := by
  rw [of, ofSegments, Intervals.segments, Intervals.map_lo_segmentsOf,
    Intervals.map_value_segmentsOf]

/-- Where segments lie end to end, their bounds are found in the starts. -/
theorem segment?_ofSegments {segments : List (Segment α)} {first : Nat} (h : Tiles first segments)
    {i : Nat} (hi : i < segments.length) :
    (ofSegments segments).segment? i = some segments[i] := by
  have hbound : (((ofSegments segments).starts[i + 1]?).elim (some maxCode) before?) =
      some segments[i].hi := by
    have hdrop := h.drop hi
    have hnext : segments[i + 1]? = (segments.drop (i + 1)).head? := by
      rw [List.head?_drop]
    rw [ofSegments, List.getElem?_map, hnext]
    cases hrest : segments.drop (i + 1) with
    | nil =>
      rw [hrest] at hdrop
      have hhi : segments[i].hi = maxCode := Nat.succ.inj hdrop
      rw [hhi]
      rfl
    | cons next rest =>
      rw [hrest] at hdrop
      have hlo : next.lo = segments[i].hi + 1 := hdrop.1
      simp [hlo, before?]
  rw [segment?, hbound]
  simp [ofSegments, hi]

/-- Segments that lie end to end are listed as they are. -/
theorem segments_ofSegments {segments : List (Segment α)} {first : Nat} (h : Tiles first segments) :
    (ofSegments segments).segments = some segments := by
  rw [Columns.segments, ofSegments, List.length_map]
  exact mapM_range_eq_some fun i hi => segment?_ofSegments h hi

end Columns

end LongestMatch
