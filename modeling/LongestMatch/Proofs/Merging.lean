import LongestMatch.Proofs.Occurrences

/-!
# The groups of a walk, each on its own

While a match is analyzed the open spans and the markers of all groups are merged position by
position. What one position reports comes in ascending order of groups (`Span.ascending_step`), so
the spans of a walk are what the single groups report, taken together by position, and at each
position by group: `Span.ofTrail_eq_flushes`. `Nfa.analyze_exact` says this for whatever positions a
compiled automaton is asked about.
-/

namespace LongestMatch

namespace OpenSpan

/-- What a single group reports at each position in turn, and in the end for the span that is left
open. -/
def flushes (open? : Option OpenSpan) : Track → List (List Span)
  | [] => [open?.toList.flatMap close]
  | (position, m?) :: rest => (turn position open? m?).1 :: flushes (turn position open? m?).2 rest

theorem flatten_flushes (open? : Option OpenSpan) (track : Track) :
    (flushes open? track).flatten = run open? track := by
  induction track generalizing open? with
  | nil => exact List.flatten_singleton
  | cons p track ih => rw [flushes, List.flatten_cons, ih, run]

end OpenSpan

namespace Span

open OpenSpan (slot turn flushes)

variable {spans : List Span} {opened : List OpenSpan} {ms : List Marker} {position n : Nat}

/-! ## In ascending order of groups -/

/-- The groups come in ascending order. -/
def Ascending (spans : List Span) : Prop :=
  spans.Pairwise fun s t => s.group ≤ t.group

/-- Below a number, and then at it. -/
theorem Ascending.split (h : Ascending spans) (hlt : ∀ s ∈ spans, s.group ≤ n) :
    (spans.filter fun s => s.group < n) ++ ofGroup spans n = spans := by
  induction spans with
  | nil => rfl
  | cons s spans ih =>
    obtain ⟨hs, hspans⟩ := List.pairwise_cons.1 h
    obtain ⟨hsn, hlt⟩ := List.forall_mem_cons.1 hlt
    rw [ofGroup, List.filter_cons, List.filter_cons]
    rcases Nat.lt_or_eq_of_le hsn with hsn | hsn
    · rw [if_pos (decide_eq_true hsn), if_neg (by simp [hsn.ne]), List.cons_append]
      exact congrArg _ (ih hspans hlt)
    · -- from here on there is nothing below
      have hnone : (spans.filter fun s => s.group < n) = [] := by
        rw [List.filter_eq_nil_iff]
        intro t ht
        have := hs t ht
        simp only [decide_eq_true_eq]
        omega
      rw [if_neg (by simp [hsn]), if_pos (decide_eq_true hsn), hnone, List.nil_append]
      have hrest := ih hspans hlt
      rw [hnone, List.nil_append] at hrest
      exact congrArg _ hrest

/-- In ascending order the spans are those of the groups one after another. -/
theorem Ascending.eq_flatMap (h : Ascending spans) (hlt : ∀ s ∈ spans, s.group < n) :
    (List.range n).flatMap (ofGroup spans) = spans := by
  induction n generalizing spans with
  | zero =>
    have hnil : spans = [] :=
      List.eq_nil_iff_forall_not_mem.2 fun s hs => Nat.not_lt_zero _ (hlt s hs)
    rw [hnil]
    rfl
  | succ n ih =>
    have hlow := ih (List.Pairwise.filter (fun s => s.group < n) h) fun s hs =>
      of_decide_eq_true (List.mem_filter.1 hs).2
    have hsame : (List.range n).flatMap (ofGroup (spans.filter fun s => s.group < n)) =
        (List.range n).flatMap (ofGroup spans) := by
      apply List.flatMap_congr
      intro group hgroup
      have hgroup := List.mem_range.1 hgroup
      rw [ofGroup, ofGroup, List.filter_filter]
      apply List.filter_congr
      intro s _
      by_cases heq : s.group = group
      · simp [heq, hgroup]
      · simp [heq]
    rw [List.range_succ, List.flatMap_append, ← hsame, hlow, List.flatMap_singleton]
    exact h.split fun s hs => Nat.le_of_lt_succ (hlt s hs)

theorem ascending_close (s : OpenSpan) : Ascending s.close := by
  unfold OpenSpan.close
  split
  · exact List.pairwise_singleton _ _
  · exact List.Pairwise.nil

theorem ascending_flatMap_close (ho : OpenSpan.Ordered opened) :
    Ascending (opened.flatMap OpenSpan.close) := by
  induction opened with
  | nil => exact List.Pairwise.nil
  | cons s opened ih =>
    obtain ⟨hs, ho⟩ := List.pairwise_cons.1 ho
    refine List.pairwise_append.2 ⟨ascending_close s, ih ho, fun a ha b hb => ?_⟩
    obtain ⟨t, ht, hb⟩ := List.mem_flatMap.1 hb
    rw [OpenSpan.group_of_mem_close ha, OpenSpan.group_of_mem_close hb]
    exact (hs t ht).le

theorem ascending_advance {s : OpenSpan} {m : Marker} : Ascending (s.advance m position).1 := by
  rw [OpenSpan.advance_eq]
  split
  · exact ascending_close _
  · exact List.Pairwise.nil

/-- Only for open spans anything is reported at a position. -/
theorem group_of_mem_spans_step {span : Span} (h : span ∈ (step position opened ms).1) :
    ∃ s ∈ opened, s.group = span.group := by
  have hbehind : ∀ {s : OpenSpan} {opened : List OpenSpan} {now later : List Span},
      (∀ span ∈ now, span.group = s.group) → (span ∈ later → ∃ t ∈ opened, t.group = span.group) →
        span ∈ now ++ later → ∃ t ∈ s :: opened, t.group = span.group := by
    intro s opened now later hnow hlater hspan
    rcases List.mem_append.1 hspan with hspan | hspan
    · exact ⟨s, List.mem_cons_self, (hnow span hspan).symm⟩
    · obtain ⟨t, ht, heq⟩ := hlater hspan
      exact ⟨t, List.mem_cons_of_mem _ ht, heq⟩
  fun_induction step position opened ms with
  | case1 => cases h
  | case2 s opened later ih => exact hbehind (fun _ => OpenSpan.group_of_mem_close) ih h
  | case3 m ms later hstart ih => exact ih h
  | case4 m ms later hstart ih => exact ih h
  | case5 s opened m ms heq now later ih =>
    have hgroup := (OpenSpan.group_advance position heq).2
    exact hbehind (fun span hspan => (hgroup span hspan).trans heq.symm) ih h
  | case6 s opened m ms hne hlt later ih =>
    exact hbehind (fun _ => OpenSpan.group_of_mem_close) ih h
  | case7 s opened m ms hne hlt later hstart ih => exact ih h
  | case8 s opened m ms hne hlt later hstart ih => exact ih h

/-- What is reported at a position comes in ascending order. -/
theorem ascending_step (ho : OpenSpan.Ordered opened) :
    Ascending (step position opened ms).1 := by
  have hbehind : ∀ {s : OpenSpan} {opened : List OpenSpan} {now : List Span} {ms : List Marker},
      (∀ t ∈ opened, s.group < t.group) → Ascending now → (∀ span ∈ now, span.group = s.group) →
        Ascending (step position opened ms).1 →
          Ascending (now ++ (step position opened ms).1) := by
    intro s opened now ms hs hnow hgroup hlater
    refine List.pairwise_append.2 ⟨hnow, hlater, fun a ha b hb => ?_⟩
    obtain ⟨t, ht, hb⟩ := group_of_mem_spans_step hb
    rw [hgroup a ha, ← hb]
    exact (hs t ht).le
  fun_induction step position opened ms with
  | case1 => exact List.Pairwise.nil
  | case2 s opened later ih =>
    obtain ⟨hs, ho⟩ := List.pairwise_cons.1 ho
    exact hbehind hs (ascending_close s) (fun _ => OpenSpan.group_of_mem_close) (ih ho)
  | case3 m ms later hstart ih => exact ih ho
  | case4 m ms later hstart ih => exact ih ho
  | case5 s opened m ms heq now later ih =>
    obtain ⟨hs, ho⟩ := List.pairwise_cons.1 ho
    have hgroup := (OpenSpan.group_advance position heq).2
    exact hbehind hs ascending_advance (fun span hspan => (hgroup span hspan).trans heq.symm)
      (ih ho)
  | case6 s opened m ms hne hlt later ih =>
    obtain ⟨hs, ho⟩ := List.pairwise_cons.1 ho
    exact hbehind hs (ascending_close s) (fun _ => OpenSpan.group_of_mem_close) (ih ho)
  | case7 s opened m ms hne hlt later hstart ih => exact ih ho
  | case8 s opened m ms hne hlt later hstart ih => exact ih ho

/-! ## Along a whole way -/

/-- The spans of a way are what its groups report, by position, and at each position by group. -/
theorem ofTrail_eq_flushes {way : List (Nat × List Marker)} (ho : OpenSpan.Ordered opened)
    (hway : ∀ p ∈ way, Marker.Ordered p.2) (hopened : ∀ s ∈ opened, s.group < n)
    (hmet : ∀ p ∈ way, ∀ m ∈ p.2, m.group < n) :
    ofTrail opened way = (List.range (way.length + 1)).flatMap fun k =>
      (List.range n).flatMap fun group =>
        (flushes (slot group opened) (Track.ofWay group way)).getD k [] := by
  induction way generalizing opened with
  | nil =>
    have hlt : ∀ span ∈ opened.flatMap OpenSpan.close, span.group < n := by
      intro span hspan
      obtain ⟨s, hs, hspan⟩ := List.mem_flatMap.1 hspan
      rw [OpenSpan.group_of_mem_close hspan]
      exact hopened s hs
    have hgroups : ofGroup (opened.flatMap OpenSpan.close) =
        fun group => (slot group opened).toList.flatMap OpenSpan.close :=
      funext fun group => ofGroup_flatMap_close ho
    rw [ofTrail, ← (ascending_flatMap_close ho).eq_flatMap hlt, hgroups]
    exact (List.flatMap_singleton _ _).symm
  | cons p way ih =>
    obtain ⟨hp, hway⟩ := List.forall_mem_cons.1 hway
    obtain ⟨hmetp, hmet⟩ := List.forall_mem_cons.1 hmet
    -- a group turns in its own slot, and its other flushes come later
    have hflushes : ∀ group, flushes (slot group opened) (Track.ofWay group (p :: way)) =
        ofGroup (step p.1 opened p.2).1 group ::
          flushes (slot group (step p.1 opened p.2).2) (Track.ofWay group way) := by
      intro group
      obtain ⟨hspans, hslot⟩ := Prod.mk.inj (ofGroup_step p.1 group ho hp)
      rw [hspans, hslot]
      rfl
    have hopened' : ∀ s ∈ (step p.1 opened p.2).2, s.group < n := by
      intro s hs
      rcases group_of_mem_step hs with ⟨t, ht, heq⟩ | ⟨m, hm, heq⟩
      · exact heq ▸ hopened t ht
      · exact heq ▸ hmetp m hm
    have hlt : ∀ span ∈ (step p.1 opened p.2).1, span.group < n := by
      intro span hspan
      obtain ⟨s, hs, heq⟩ := group_of_mem_spans_step hspan
      exact heq ▸ hopened s hs
    have hnow := (ascending_step ho).eq_flatMap hlt
    have hrange : List.range ((p :: way).length + 1) =
        0 :: (List.range (way.length + 1)).map Nat.succ := List.range_succ_eq_map
    simp only [hflushes]
    rw [ofTrail, ih (ordered_step ho hp) hway hopened' hmet, hrange, List.flatMap_cons,
      List.flatMap_map]
    simp only [List.getD_cons_zero, List.getD_cons_succ]
    rw [hnow]

end Span

namespace Nfa

open Pattern
open OpenSpan (flushes)

variable {nfa : Nfa} {dfa : Dfa} {catalog : Catalog} {failPolicy : FailPolicy}
  {eofAction : Option ActionId}

/-- The markers in the states of a compiled automaton are in order, since putting markers together
brings them into order. -/
theorem inOrder_marks_compile (h : nfa.compile catalog failPolicy eofAction = .ok dfa) (i : Nat) :
    (dfa.state i).marks.InOrder := by
  rcases state_compile h i with ⟨set, row, -, heq⟩ | heq
  · rw [heq]
    exact inOrder_marksOfSet nfa set
  · rw [heq]
    exact Marks.inOrder_empty

theorem ordered_markersMet (h : nfa.compile catalog failPolicy eofAction = .ok dfa)
    (action : ActionId) (positions : List (Nat × Nat)) :
    ∀ p ∈ dfa.markersMet action positions, Marker.Ordered p.2 := by
  intro p hp
  obtain ⟨q, -, rfl⟩ := List.mem_map.1 hp
  exact Dfa.ordered_markersFor (inOrder_marks_compile h q.1)

/-- The analysis of recorded positions, up to the cut-off, whatever they are. At each of them the
markers are in order of groups. The spans are those that the groups report each on its own, ordered
by the position at which they are reported, and at one position by group; so the spans of one group
do not depend on the markers of the others. If the analysis is left out because no state has
markers, this is what it would come to. -/
theorem analyze_exact (h : nfa.compile catalog failPolicy eofAction = .ok dfa) (action : ActionId)
    (positions : List (Nat × Nat)) (count : Nat) :
    let way := dfa.markersMet action (positions.take count)
    (∀ p ∈ way, Marker.Ordered p.2) ∧
      dfa.analyze action positions count = Span.ofTrail [] way ∧
      (∀ n, (∀ p ∈ way, ∀ m ∈ p.2, m.group < n) →
        dfa.analyze action positions count = (List.range (way.length + 1)).flatMap fun k =>
          (List.range n).flatMap fun group =>
            (flushes none (Track.ofWay group way)).getD k []) ∧
      ∀ group, Span.ofGroup (dfa.analyze action positions count) group =
        (flushes none (Track.ofWay group way)).flatten := by
  intro way
  have hway : ∀ p ∈ way, Marker.Ordered p.2 := ordered_markersMet h action _
  refine ⟨hway, Dfa.analyze_eq, fun n hn => ?_, fun group => ?_⟩
  · rw [Dfa.analyze_eq]
    exact Span.ofTrail_eq_flushes List.Pairwise.nil hway (fun s hs => by cases hs) hn
  · rw [Dfa.analyze_eq, OpenSpan.flatten_flushes]
    exact Span.ofGroup_ofTrail List.Pairwise.nil hway

/-- In `ab` the group behind the option is flushed once, in the end. -/
theorem analyze_exact_behindOption :
    ∃ nfa dfa states, ofPattern {} "a?(!b)" = .ok nfa ∧
      (nfa.addAction 7).compile clashing .copy none = .ok dfa ∧
      dfa.analyze 7 (List.zip states [0, 1, 2]) 3 = [⟨1, 2, 0⟩] ∧
      (flushes none
        (Track.ofWay 0 (dfa.markersMet 7 (List.zip states [0, 1, 2])))).flatten = [⟨1, 2, 0⟩] := by
  obtain ⟨nfa, hpattern, dfa, hdfa, hresult, hadded, hreported⟩ := exists_match_behindOption
  obtain ⟨states, hspans, -⟩ := Dfa.exists_states_of_match hresult
  have hspans : Span.ofTrail [] (dfa.wayOf 7 0 ['a', 'b'] states) = [⟨1, 2, 0⟩] := by
    rw [← hreported, ← hadded]
    exact hspans.symm
  have hcut : (List.zip states [0, 1, 2]).take 3 = List.zip states [0, 1, 2] :=
    List.take_of_length_le (by rw [List.length_zip]; exact Nat.min_le_right _ _)
  obtain ⟨-, hwalk, -, hgroup⟩ := analyze_exact hdfa 7 (List.zip states [0, 1, 2]) 3
  rw [hcut] at hwalk hgroup
  have hspans := hwalk.trans hspans
  refine ⟨nfa, dfa, states, hpattern, hdfa, hspans, ?_⟩
  rw [← hgroup 0, hspans]
  rfl

end Nfa

end LongestMatch
