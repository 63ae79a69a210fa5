import LongestMatch.Proofs.ReadBack
import LongestMatch.Proofs.Writes

/-!
# Flattening a partition

The transitions of a partition are in canonical form: sorted, without overlap, and with no two
neighbours that could be one (`Transition.Canonical`). There is only one list of that form for what
a partition says, so flattening a partition that was staged from such a list gives the list back:
`Columns.flattening_canonical`.

A run of code points need not be one of characters. One that begins or ends in the surrogate gap is
clamped, one that lies within the gap is dropped, whatever its value, and then the entries on either
side of the gap are neighbours.

* `Transition.canonical_iff_joined` — the form in terms of the characters between two entries.
* `Columns.Reached.exists_valid` — what updates lead to is the columns of a valid partition.
-/

namespace LongestMatch

namespace Transition

/-! ## The canonical form -/

/-- A list of transitions with nothing void, in order, without overlap, and with a character between
any two neighbours that have the same target. -/
structure Canonical (ts : List Transition) : Prop where
  lo_le_hi : ∀ t ∈ ts, t.lo ≤ t.hi
  disjoint : ts.Pairwise fun t u => t.hi < u.lo
  maximal : ts.IsChain fun t u => t.target = u.target → ∃ c : Char, t.hi < c ∧ c < u.lo

/-- Of two entries in order, the second does not continue the first if there is a character between
them or the targets differ. -/
theorem not_continues_iff {t u : Transition} (h : t.hi < u.lo) :
    ¬Continues t u ↔ (t.target = u.target → ∃ c : Char, t.hi < c ∧ c < u.lo) := by
  rw [Continues, areNeighbours_iff h, not_and, not_forall]
  simp only [not_not, Char.lt_iff_toNat]

theorem canonical_iff_joined {ts : List Transition} : Canonical ts ↔ Joined ts := by
  have hchain : ts.Pairwise (fun t u => t.hi < u.lo) →
      ((ts.IsChain fun t u => ¬Continues t u) ↔
        ts.IsChain fun t u => t.target = u.target → ∃ c : Char, t.hi < c ∧ c < u.lo) := by
    intro hdisjoint
    induction ts with
    | nil => simp
    | cons t ts ih =>
      cases ts with
      | nil => simp
      | cons u ts =>
        obtain ⟨hhead, htail⟩ := List.pairwise_cons.1 hdisjoint
        rw [List.isChain_cons_cons, List.isChain_cons_cons, ih htail,
          not_continues_iff (hhead u List.mem_cons_self)]
  constructor
  · intro h
    exact ⟨⟨h.disjoint, h.lo_le_hi⟩, (hchain h.disjoint).2 h.maximal⟩
  · intro h
    exact ⟨h.sorted.lo_le_hi, h.sorted.pairwise, (hchain h.sorted.pairwise).1 h.apart⟩

end Transition

namespace Columns

open Transition (Canonical Leads)

variable {α : Type}

/-! ## What updates lead to -/

/-- The partitions that come of an unset one by updates, whatever the ranges of these are and
whatever they do with the values that they visit, one after the other, with a state of their own. -/
inductive Reached : Columns α → Prop where
  | unset : Reached unset
  | update {cols : Columns α} {σ : Type} {lo hi : Nat} {f : Option α → StateM σ (Option α)}
      {program : StateM σ (Columns α)} (s : σ) :
      Reached cols → cols.update lo hi f = some program → Reached (program.run s).1
  | overwrite {cols cols' : Columns α} {lo hi : Nat} {a : α} :
      Reached cols → cols.overwrite lo hi a = some cols' → Reached cols'
  | fillUnset {cols : Columns α} (a : α) : Reached cols → Reached (cols.fillUnset a)

/-- Segments that lie end to end are those of a valid partition. -/
theorem exists_valid_of_tiles {segments : List (Segment α)} (h : Tiles 0 segments) :
    ∃ iv : Intervals α, iv.Valid ∧ ofSegments segments = of iv := by
  refine ⟨⟨segments.map fun s => ⟨s.lo, s.value⟩⟩, ⟨?_, ?_, ?_⟩, ?_⟩
  · exact List.pairwise_map.2 h.pairwise
  · cases segments with
    | nil => cases h
    | cons s rest => exact ⟨_, List.mem_cons_self, h.1⟩
  · refine List.forall_mem_map.2 fun s hs => ?_
    exact (h.lo_le_hi s hs).trans (h.le.2 s hs).2
  · simp [ofSegments, of]

/-- An update of a valid partition goes through and leaves a valid one. -/
theorem exists_update {iv : Intervals α} (h : iv.Valid) {σ : Type} (lo hi : Nat)
    (f : Option α → StateM σ (Option α)) :
    ∃ program, (of iv).update lo hi f = some program ∧
      ∀ s, ∃ iv' : Intervals α, iv'.Valid ∧ (program.run s).1 = of iv' := by
  unfold update
  by_cases hle : lo ≤ hi
  · obtain ⟨before, inside, behind, hisolated, hisolate⟩ := exists_isolated h hle
    rw [if_pos hle, hisolate]
    refine ⟨_, rfl, fun s => ?_⟩
    obtain ⟨values, s', hlength, hrun, -⟩ := exists_run_visit before inside behind f s
    rw [hrun]
    exact exists_valid_of_tiles (tiles_withValues hisolated.tiles hlength)
  · rw [if_neg hle]
    exact ⟨_, rfl, fun s => ⟨iv, h, rfl⟩⟩

theorem Reached.exists_valid {cols : Columns α} (h : Reached cols) :
    ∃ iv : Intervals α, iv.Valid ∧ cols = of iv := by
  induction h with
  | unset => exact ⟨_, Intervals.valid_unset, rfl⟩
  | @update cols σ lo hi f program s _ hprogram ih =>
    obtain ⟨iv, hvalid, rfl⟩ := ih
    obtain ⟨program', hprogram', hafter⟩ := exists_update hvalid lo hi f
    obtain rfl := Option.some.inj (hprogram.symm.trans hprogram')
    exact hafter s
  | @overwrite cols cols' lo hi a _ hwrite ih =>
    obtain ⟨iv, hvalid, rfl⟩ := ih
    have hperform := Write.perform_of hvalid (.overwrite lo hi a)
    exact ⟨_, Write.valid_apply hvalid _, Option.some.inj (hwrite.symm.trans hperform)⟩
  | fillUnset a _ ih =>
    obtain ⟨iv, hvalid, rfl⟩ := ih
    have hperform := Write.perform_of hvalid (.fill a)
    exact ⟨_, Write.valid_apply hvalid _, Option.some.inj hperform⟩

/-- A row of writes leads on from what updates lead to. -/
theorem Reached.foldlM_overwrite {β : Type} {lo hi : β → Nat} {value : β → α} {ws : List β}
    {cols cols' : Columns α} (h : Reached cols)
    (hrun : ws.foldlM (fun cols w => cols.overwrite (lo w) (hi w) (value w)) cols = some cols') :
    Reached cols' := by
  induction ws generalizing cols with
  | nil =>
    obtain rfl := Option.some.inj hrun
    exact h
  | cons w ws ih =>
    rw [List.foldlM_cons] at hrun
    obtain ⟨next, hnext, hrest⟩ := Option.bind_eq_some_iff.1 hrun
    exact ih (.overwrite h hnext) hrest

/-! ## Flattening and staging -/

/-- The transitions of a valid partition have no two neighbours that could be one. -/
theorem joined_toTransitions {iv : Intervals Nat} (h : iv.Valid) :
    Transition.Joined iv.toTransitions :=
  Transition.joined_join (Intervals.Segment.sorted_transitions h.segments_ordered.2)

/-- The columns of a valid partition are flattened as the partition is. -/
theorem toTransitions_of {iv : Intervals Nat} (h : iv.Valid) :
    (of iv).toTransitions = some iv.toTransitions := by
  rw [toTransitions, of_eq_ofSegments, segments_ofSegments h.tiles]
  rfl

/-- A list is staged in columns as it is in a partition. -/
theorem foldlM_overwrite_of {iv : Intervals Nat} (h : iv.Valid) (ts : List Transition) :
    ts.foldlM (fun cols t => cols.overwrite t.lo.toNat t.hi.toNat t.target) (of iv) =
      some (of (ts.foldl (fun iv t => iv.overwrite t.lo.toNat t.hi.toNat t.target) iv)) := by
  induction ts generalizing iv with
  | nil => rfl
  | cons t ts ih =>
    have hperform := Write.perform_of h (.overwrite t.lo.toNat t.hi.toNat t.target)
    rw [List.foldlM_cons, List.foldl_cons, ← ih (h.overwrite _ _ _)]
    exact congrArg (Option.bind · _) hperform

theorem ofTransitions_eq (ts : List Transition) :
    ofTransitions ts = some (of (Intervals.ofTransitions ts)) :=
  foldlM_overwrite_of Intervals.valid_unset ts

/-! ## The round trip -/

/-- Flattening is canonical and can be undone. A partition that updates lead to can be updated on
with any bounds, and each character has a value in it or none; its transitions are in canonical
form, lead a character where its value says and nowhere if it has none, and are the only list of
that form that does. Every list in canonical form is what is read back after staging it. -/
theorem flattening_canonical :
    (∀ cols : Columns Nat, Reached cols →
      (∀ (σ : Type) (lo hi : Nat) (f : Option Nat → StateM σ (Option Nat)),
        ∃ program, cols.update lo hi f = some program) ∧
      ∃ ts, cols.toTransitions = some ts ∧ Canonical ts ∧
        (∀ c : Char, ∃ value, cols.get c.toNat = some value ∧
          ∀ q, (∃ t ∈ ts, t.contains c = true ∧ t.target = q) ↔ value = some q) ∧
        ∀ us, Canonical us →
          (∀ (c : Char) q, (∃ u ∈ us, u.contains c = true ∧ u.target = q) ↔
            cols.get c.toNat = some (some q)) → us = ts) ∧
      ∀ ts, Canonical ts →
        ∃ cols, ofTransitions ts = some cols ∧ Reached cols ∧ cols.toTransitions = some ts := by
  refine ⟨fun cols hcols => ?_, fun ts hts => ?_⟩
  · obtain ⟨iv, hvalid, rfl⟩ := hcols.exists_valid
    have hjoined := joined_toTransitions hvalid
    have hleads : ∀ (c : Char) q, Leads iv.toTransitions c q ↔ iv.get c.toNat = some q :=
      fun c q => Intervals.leads_toTransitions hvalid
    refine ⟨fun σ lo hi f => ?_, iv.toTransitions, toTransitions_of hvalid,
      Transition.canonical_iff_joined.2 hjoined,
      fun c => ⟨iv.get c.toNat, get_of hvalid _, hleads c⟩, fun us hus hsays => ?_⟩
    · obtain ⟨program, hprogram, -⟩ := exists_update hvalid lo hi f
      exact ⟨program, hprogram⟩
    · refine (Transition.canonical_iff_joined.1 hus).eq_of_leads hjoined fun c q => ?_
      rw [hleads, Leads, hsays, get_of hvalid, Option.some_inj]
  · have hjoined := Transition.canonical_iff_joined.1 hts
    have hvalid := Intervals.valid_ofTransitions ts
    have hback : (Intervals.ofTransitions ts).toTransitions = ts := by
      refine (joined_toTransitions hvalid).eq_of_leads hjoined fun c q => ?_
      exact (Intervals.leads_toTransitions hvalid).trans
        (Intervals.get_ofTransitions hjoined.sorted)
    refine ⟨_, ofTransitions_eq ts, Reached.unset.foldlM_overwrite (ofTransitions_eq ts), ?_⟩
    rw [toTransitions_of hvalid, hback]

/-- One entry around the whole of the surrogate gap. -/
def acrossGap : List Transition :=
  [⟨⟨'\uD000', '\uE0FF'⟩, 1⟩]

/-- Writes with a bound in the surrogate gap, and one of another value between them. -/
theorem flattening_canonical_acrossGap :
    ∃ cols, [(0xD000, 0xD800, 1), (0xDC00, 0xE0FF, 1), (0xD900, 0xDA00, 2)].foldlM
        (fun cols w => cols.overwrite w.1 w.2.1 w.2.2) unset = some cols ∧ Reached cols ∧
      cols.toTransitions = some acrossGap ∧ Canonical acrossGap ∧
      ∃ staged, ofTransitions acrossGap = some staged ∧ staged.toTransitions = some acrossGap := by
  have hwrites : [(0xD000, 0xD800, 1), (0xDC00, 0xE0FF, 1), (0xD900, 0xDA00, 2)].foldlM
      (fun cols w => cols.overwrite w.1 w.2.1 w.2.2) unset =
        some ⟨[0, 0xD000, 0xD801, 0xD900, 0xDA01, 0xDC00, 0xE100],
          [none, some 1, none, some 2, none, some 1, none]⟩ := by
    rfl
  have hreached := Reached.unset.foldlM_overwrite hwrites
  have hcanonical : Canonical acrossGap := by
    refine ⟨?_, ?_, ?_⟩ <;> simp [acrossGap]
  obtain ⟨-, ts, hts, hform, -⟩ := flattening_canonical.1 _ hreached
  obtain rfl : acrossGap = ts := Option.some.inj hts
  obtain ⟨staged, hstaged, -, hback⟩ := flattening_canonical.2 _ hcanonical
  exact ⟨_, hwrites, hreached, hts, hform, staged, hstaged, hback⟩

end Columns

end LongestMatch
