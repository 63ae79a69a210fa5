import LongestMatch.Proofs.Columns

/-!
# Stored partitions are maps

Writes one after the other, on the columns that a partition is stored in. `Write.perform` is what a
write does to the columns and `Write.cell` what it does to the cell of one code point; the main
result, `Columns.maps_of_writes`, is that the columns hold for each code point what its cell holds,
whatever the writes and their ranges are, and that an update visits exactly the runs of its range.

* `Write.foldlM_perform_of` — the columns are those of a valid partition throughout.
* `exists_isolated` — how an update cuts the runs at the ends of its range.
* `visits_ofSegments` — what it visits then.
-/

namespace LongestMatch

variable {α : Type}

/-! ## Writes -/

/-- A write of a partition. -/
inductive Write (α : Type) where
  | update (lo hi : Nat) (f : Option α → Option α)
  | overwrite (lo hi : Nat) (a : α)
  | fill (a : α)

namespace Write

/-- What a write does to the cell of a code point. -/
def cell (code : Nat) (v : Option α) : Write α → Option α
  | update lo hi f => if lo ≤ code ∧ code ≤ hi then f v else v
  | overwrite lo hi a => if lo ≤ code ∧ code ≤ hi then some a else v
  | fill a => some (v.getD a)

/-- What a write does to the stored columns. -/
def perform (cols : Columns α) : Write α → Option (Columns α)
  | update lo hi f => Id.run <$> cols.update lo hi fun v => pure (f v)
  | overwrite lo hi a => cols.overwrite lo hi a
  | fill a => some (cols.fillUnset a)

/-- What a write does to a partition. -/
def apply (iv : Intervals α) : Write α → Intervals α
  | update lo hi f => iv.update lo hi f
  | overwrite lo hi a => iv.overwrite lo hi a
  | fill a => iv.fillUnset a

theorem valid_apply {iv : Intervals α} (h : iv.Valid) (w : Write α) : (w.apply iv).Valid := by
  cases w with
  | update lo hi f => exact h.update lo hi f
  | overwrite lo hi a => exact h.overwrite lo hi a
  | fill a => exact h.fillUnset a

theorem get_apply {iv : Intervals α} (h : iv.Valid) (w : Write α) {code : Nat}
    (hcode : code ≤ maxCode) : (w.apply iv).get code = w.cell code (iv.get code) := by
  cases w with
  | update lo hi f => exact h.get_update lo hi f hcode
  | overwrite lo hi a => exact h.get_overwrite lo hi a hcode
  | fill a => exact h.get_fillUnset a code

/-- On the columns of a partition a write goes through, and does what it does to the partition. -/
theorem perform_of {iv : Intervals α} (h : iv.Valid) (w : Write α) :
    w.perform (Columns.of iv) = some (Columns.of (w.apply iv)) := by
  cases w with
  | update lo hi f => exact Columns.update_of h lo hi f
  | overwrite lo hi a => exact Columns.update_of h lo hi fun _ => some a
  | fill a => simp [perform, apply, Columns.fillUnset, Intervals.fillUnset, Columns.of,
      Function.comp_def]

/-- A row of writes goes through on the columns of a partition, and leaves those of a partition in
which every code point has gone through the writes by itself. -/
theorem foldlM_perform_of {iv : Intervals α} (h : iv.Valid) (ws : List (Write α)) :
    ∃ iv' : Intervals α, iv'.Valid ∧ ws.foldlM perform (Columns.of iv) = some (Columns.of iv') ∧
      ∀ code ≤ maxCode, iv'.get code = ws.foldl (cell code) (iv.get code) := by
  induction ws generalizing iv with
  | nil => exact ⟨iv, h, rfl, fun _ _ => rfl⟩
  | cons w ws ih =>
    obtain ⟨iv', hvalid, hrun, hget⟩ := ih (valid_apply h w)
    refine ⟨iv', hvalid, ?_, fun code hcode => ?_⟩
    · rw [List.foldlM_cons, perform_of h w]
      exact hrun
    · rw [hget code hcode, get_apply h w hcode, List.foldl_cons]

end Write

namespace Columns

/-- There are as many values as starts, and these ascend from 0. -/
structure WellFormed (cols : Columns α) : Prop where
  ascending : cols.starts.Pairwise (· < ·)
  starts_at_zero : cols.starts.head? = some 0
  length_eq : cols.values.length = cols.starts.length

theorem wellFormed_ofSegments {segments : List (Segment α)} (h : Tiles 0 segments) :
    (ofSegments segments).WellFormed := by
  refine ⟨List.pairwise_map.2 h.pairwise, ?_, by simp [ofSegments]⟩
  cases segments with
  | nil => cases h
  | cons s rest => exact congrArg some h.1

/-! ## What an update visits -/

/-- Gives a run another value, with the effects of `f`. -/
def revalue {m : Type → Type} [Monad m] (f : Option α → m (Option α)) (s : Segment α) :
    m (Segment α) := do
  return { s with value := ← f s.value }

/-- The runs of the partition stored by `cols`, cut at the ends of the range from `lo` to `hi`:
those before it, those within and those behind. -/
structure Isolated (cols : Columns α) (lo hi : Nat) (before inside behind : List (Segment α)) :
    Prop where
  tiles : Tiles 0 (before ++ inside ++ behind)
  value_eq : ∀ s ∈ before ++ inside ++ behind, ∀ code, s.lo ≤ code → code ≤ s.hi →
    cols.get code = some s.value
  hi_lt : ∀ s ∈ before, s.hi < lo
  within : ∀ s ∈ inside, lo ≤ s.lo ∧ s.hi ≤ hi
  lt_lo : ∀ s ∈ behind, hi < s.lo

/-- After the cuts at `lo` and behind `hi`, a segment that starts before one of the two ends before
it as well. -/
theorem hi_lt_of_split {iv : Intervals α} (h : iv.Valid) {lo hi code : Nat}
    (hcode : code = lo ∨ code = hi + 1) {s : Segment α}
    (hs : s ∈ ((iv.split lo).split (hi + 1)).segments) (hlt : s.lo < code) : s.hi < code := by
  have htiles := ((h.split lo).split (hi + 1)).tiles
  by_cases hmax : code ≤ maxCode
  · obtain ⟨r, hr, rfl⟩ : ∃ r ∈ ((iv.split lo).split (hi + 1)).runs, r.start = code := by
      rcases hcode with rfl | rfl
      · obtain ⟨r, hr, hstart⟩ := h.exists_start_split code hmax
        exact ⟨r, Intervals.Valid.mem_split hr _, hstart⟩
      · exact (h.split lo).exists_start_split _ hmax
    have hmem := List.mem_map_of_mem (f := Run.start) hr
    rw [← Intervals.map_lo_segmentsOf] at hmem
    obtain ⟨t, ht, hlo⟩ := List.mem_map.1 hmem
    rw [← hlo] at hlt ⊢
    exact htiles.hi_lt hs ht hlt
  · have := (htiles.le.2 s hs).2
    omega

/-- Isolating a range in the columns of a partition cuts its runs at the ends of the range. -/
theorem exists_isolated {iv : Intervals α} (h : iv.Valid) {lo hi : Nat} (hle : lo ≤ hi) :
    ∃ before inside behind, Isolated (of iv) lo hi before inside behind ∧
      (of iv).isolate lo hi =
        some (before.length, (before ++ inside).length, ofSegments (before ++ inside ++ behind)) := by
  obtain ⟨front, inner, back, hsplit, hfront, hinner, hback, hisolate⟩ := isolate_of h hle
  obtain ⟨before, inside, behind, hsegments, hbefore, hinside, hbehind⟩ :=
    Intervals.exists_segmentsOf_append front inner back
  have hvalid := (h.split lo).split (hi + 1)
  have hcut : ((iv.split lo).split (hi + 1)).segments = before ++ inside ++ behind := by
    rw [hsplit, Intervals.segments, hsegments]
  have hends : ∀ code, code = lo ∨ code = hi + 1 → ∀ s ∈ before ++ inside ++ behind,
      s.lo < code → s.hi < code :=
    fun code hcode s hs => hi_lt_of_split h hcode (hcut ▸ hs)
  -- the segments start where the runs do
  rw [← List.forall_mem_map (f := Run.start) (P := (· < lo)), ← hbefore, List.forall_mem_map]
    at hfront
  rw [← List.forall_mem_map (f := Run.start) (P := fun start => lo ≤ start ∧ start ≤ hi),
    ← hinside, List.forall_mem_map] at hinner
  rw [← List.forall_mem_map (f := Run.start) (P := (hi < ·)), ← hbehind, List.forall_mem_map]
    at hback
  refine ⟨before, inside, behind, ⟨hcut ▸ hvalid.tiles, fun s hs code hlo hhi => ?_,
    fun s hs => ?_, fun s hs => ?_, hback⟩, ?_⟩
  · rw [get_of h, ← h.get_split lo, ← (h.split lo).get_split (hi + 1),
      hvalid.value_eq_get (hcut ▸ hs) hlo hhi]
  · exact hends lo (Or.inl rfl) s (by simp [hs]) (hfront s hs)
  · obtain ⟨hlo, hhi⟩ := hinner s hs
    exact ⟨hlo, Nat.le_of_lt_succ (hends (hi + 1) (Or.inr rfl) s (by simp [hs]) (by omega))⟩
  · have hlength : before.length = front.length := by
      simpa using congrArg List.length hbefore
    have hlength' : inside.length = inner.length := by
      simpa using congrArg List.length hinside
    rw [hisolate, ← hsplit, of_eq_ofSegments, hcut, List.length_append, List.length_append,
      hlength, hlength']

/-- The runs with other values. -/
def withValues (segments : List (Segment α)) (values : List (Option α)) : List (Segment α) :=
  segments.zipWith (fun s v => { s with value := v }) values

/-- Visiting the values of the runs gives the runs their new values. -/
theorem mapM_revalue {m : Type → Type} [Monad m] [LawfulMonad m] (f : Option α → m (Option α))
    (segments : List (Segment α)) :
    segments.mapM (revalue f) = withValues segments <$> (segments.map Segment.value).mapM f := by
  induction segments with
  | nil => simp [withValues]
  | cons s rest ih =>
    rw [List.mapM_cons, ih, List.map_cons, List.mapM_cons]
    simp [revalue, withValues]

/-- The bounds stay and the values are the new ones. -/
theorem map_withValues {segments : List (Segment α)} {values : List (Option α)}
    (h : values.length = segments.length) :
    (withValues segments values).map (fun s => (s.lo, s.hi)) =
        segments.map (fun s => (s.lo, s.hi)) ∧
      (withValues segments values).map Segment.value = values := by
  induction segments generalizing values with
  | nil =>
    rw [List.eq_nil_of_length_eq_zero h]
    exact ⟨rfl, rfl⟩
  | cons s rest ih =>
    cases values with
    | nil => cases h
    | cons v values =>
      obtain ⟨hbounds, hvalues⟩ := ih (Nat.succ.inj h)
      exact ⟨congrArg ((s.lo, s.hi) :: ·) hbounds, congrArg (v :: ·) hvalues⟩

theorem length_mapM_run {β γ σ : Type} (f : β → StateM σ γ) (l : List β) (s : σ) :
    ((l.mapM f).run s).1.length = l.length := by
  induction l generalizing s with
  | nil => rfl
  | cons b l ih =>
    rw [List.mapM_cons]
    exact congrArg (· + 1) (ih _)

/-- The columns with the runs `inside` changed. -/
theorem ofSegments_withValues {before inside behind : List (Segment α)} {values : List (Option α)}
    (h : values.length = inside.length) :
    ofSegments (before ++ withValues inside values ++ behind) =
      ⟨(before ++ inside ++ behind).map Segment.lo,
        before.map Segment.value ++ values ++ behind.map Segment.value⟩ := by
  obtain ⟨hbounds, hvalues⟩ := map_withValues h
  have hlo : (withValues inside values).map Segment.lo = inside.map Segment.lo := by
    simpa only [List.map_map, Function.comp_def] using congrArg (List.map Prod.fst) hbounds
  simp only [ofSegments, List.map_append, hlo, hvalues]

/-- A visit of the runs `inside`, and no other, by `f`, one after the other, and what it leaves. -/
structure Visits {σ : Type} (program : StateM σ (Columns α)) (f : Option α → StateM σ (Option α))
    (before inside behind : List (Segment α)) : Prop where
  wellFormed : ∀ s, (program.run s).1.WellFormed
  segments_eq : ∀ s, (program.run s).1.segments =
    some (before ++ ((inside.mapM (revalue f)).run s).1 ++ behind)
  state_eq : ∀ s, (program.run s).2 = ((inside.mapM (revalue f)).run s).2

/-- A visit of the runs `inside`, told by the values that it leaves. -/
theorem exists_run_visit {σ : Type} (before inside behind : List (Segment α))
    (f : Option α → StateM σ (Option α)) (s : σ) :
    ∃ values s', values.length = inside.length ∧
      ((ofSegments (before ++ inside ++ behind)).visit before.length
        (before ++ inside).length f).run s =
          (ofSegments (before ++ withValues inside values ++ behind), s') ∧
      (inside.mapM (revalue f)).run s = (withValues inside values, s') := by
  have hvisit := visit_append ((before ++ inside ++ behind).map Segment.lo)
    (before.map Segment.value) (inside.map Segment.value) (behind.map Segment.value) f
  rw [← List.map_append, ← List.map_append, List.length_map, List.length_map] at hvisit
  have hlength := length_mapM_run f (inside.map Segment.value) s
  rw [List.length_map] at hlength
  refine ⟨_, (((inside.map Segment.value).mapM f).run s).2, hlength, ?_, ?_⟩
  · rw [ofSegments_withValues hlength, ofSegments, hvisit]
    rfl
  · rw [mapM_revalue]
    rfl

/-- Segments that lie end to end do so with other values. -/
theorem tiles_withValues {before inside behind : List (Segment α)} {values : List (Option α)}
    (h : Tiles 0 (before ++ inside ++ behind)) (hlength : values.length = inside.length) :
    Tiles 0 (before ++ withValues inside values ++ behind) :=
  h.congr (by simp only [List.map_append, (map_withValues hlength).1])

/-- Between the indices of an isolated range lie the runs within the range. -/
theorem visits_ofSegments {σ : Type} {before inside behind : List (Segment α)}
    (h : Tiles 0 (before ++ inside ++ behind)) (f : Option α → StateM σ (Option α)) :
    Visits ((ofSegments (before ++ inside ++ behind)).visit before.length
      (before ++ inside).length f) f before inside behind := by
  refine ⟨fun s => ?_, fun s => ?_, fun s => ?_⟩ <;>
    obtain ⟨values, s', hlength, hprogram, hmapM⟩ := exists_run_visit before inside behind f s <;>
    rw [hprogram]
  · exact wellFormed_ofSegments (tiles_withValues h hlength)
  · rw [hmapM]
    exact segments_ofSegments (tiles_withValues h hlength)
  · rw [hmapM]

/-- Without a code point in its range an update visits nothing, and otherwise the runs that the
range is cut into. -/
theorem update_visits {iv : Intervals α} (h : iv.Valid) {σ : Type} (lo hi : Nat)
    (f : Option α → StateM σ (Option α)) :
    (hi < lo → (of iv).update lo hi f = some (pure (of iv))) ∧
      (lo ≤ hi → ∃ before inside behind program, Isolated (of iv) lo hi before inside behind ∧
        (of iv).update lo hi f = some program ∧ Visits program f before inside behind) := by
  refine ⟨fun hlt => ?_, fun hle => ?_⟩
  · rw [update, if_neg (by omega)]
  · obtain ⟨before, inside, behind, hisolated, hisolate⟩ := exists_isolated h hle
    refine ⟨before, inside, behind, _, hisolated, ?_, visits_ofSegments hisolated.tiles f⟩
    rw [update, if_pos hle, hisolate]
    rfl

/-! ## All of it -/

/-- Stored partitions are maps. Any row of writes goes through without an index out of range, and
leaves columns that

* have as many values as starts, which ascend from 0;
* give each code point what comes of an unset cell under the writes whose range holds it;
* list runs that lie end to end over all code points, each code point in exactly one run with the
  value it has;
* an update goes through on again, visiting each run within its range once and no other. -/
theorem maps_of_writes (ws : List (Write α)) :
    ∃ cols, ws.foldlM Write.perform unset = some cols ∧ cols.WellFormed ∧
      (∀ code ≤ maxCode, cols.get code = some (ws.foldl (Write.cell code) none)) ∧
      (∃ segments, cols.segments = some segments ∧ Tiles 0 segments ∧
        (∀ code ≤ maxCode, ∃! s, s ∈ segments ∧ s.lo ≤ code ∧ code ≤ s.hi) ∧
        ∀ s ∈ segments, ∀ code, s.lo ≤ code → code ≤ s.hi → cols.get code = some s.value) ∧
      ∀ (σ : Type) (lo hi : Nat) (f : Option α → StateM σ (Option α)),
        (hi < lo → cols.update lo hi f = some (pure cols)) ∧
        (lo ≤ hi → ∃ before inside behind program, Isolated cols lo hi before inside behind ∧
          cols.update lo hi f = some program ∧ Visits program f before inside behind) := by
  obtain ⟨iv, hvalid, hrun, hget⟩ := Write.foldlM_perform_of (Intervals.valid_unset (α := α)) ws
  have hcolumns := of_eq_ofSegments iv
  refine ⟨of iv, hrun, hcolumns ▸ wellFormed_ofSegments hvalid.tiles, fun code hcode => ?_,
    ⟨iv.segments, ?_, hvalid.tiles, fun code hcode => hvalid.tiles.existsUnique (Nat.zero_le _) hcode,
      fun s hs code hlo hhi => ?_⟩, fun σ lo hi f => update_visits hvalid lo hi f⟩
  · rw [get_of hvalid, hget code hcode, Intervals.get_unset]
  · rw [hcolumns, segments_ofSegments hvalid.tiles]
  · rw [get_of hvalid, hvalid.value_eq_get hs hlo hhi]

example :
    [Write.overwrite 5 9 1, .overwrite 7 maxBound 2, .overwrite 8 6 3, .fill 0].foldlM Write.perform
      unset = some ⟨[0, 5, 7, 10], [some 0, some 1, some 2, some 2]⟩ := by
  rfl

end Columns

end LongestMatch
