import LongestMatch.Dfa.Recorder
import LongestMatch.Proofs.Forms
import LongestMatch.Proofs.Likeness
import LongestMatch.Proofs.Succession

/-!
# Spans are well-formed and fresh

A recorder that serves one match after another comes with what the last one left in it. A match
resets it first, so what it holds afterwards is due to this match only (`Dfa.matchRecording_eq`):
the states passed through and the offsets at which they were reached (`Dfa.Recorded`), of which the
analysis keeps those of the match.

The spans are those of the match, on the boundaries of its characters, and for each group one after
another (`Nfa.spans_fresh`).
-/

namespace LongestMatch

namespace Dfa

variable {dfa : Dfa} {a : ActionId} {start : Nat} {s : Scan} {r : Recorder}

/-! ## What is recorded -/

/-- A scan with a recorder is the scan. -/
theorem scan_of_scanRecording (dfa : Dfa) (state : Nat) (s : Scan) (out : String) (r : Recorder)
    (limit : Option Nat) (src : Source) :
    dfa.scan state s limit src =
      ((dfa.scanRecording state s out r limit src).1,
        (dfa.scanRecording state s out r limit src).2.1,
        (dfa.scanRecording state s out r limit src).2.2.1) := by
  fun_induction dfa.scanRecording state s out r limit src with
  | case1 => rw [scan, if_pos rfl]
  | case2 state s out r limit src hlimit reason src' hread => exact scan_of_failed_read hlimit hread
  | case3 state s out r limit src hlimit src' hread => exact scan_of_done hlimit hread
  | case4 state s out r limit src hlimit c src' hread hget =>
    exact scan_of_get_none hlimit hread hget
  | case5 state s out r limit src hlimit c src' hread next hget _ ih =>
    rw [scan_of_get_some hlimit hread hget, ih]

theorem offsets_concat (start : Nat) (w : List Char) (c : Char) :
    offsets start (w ++ [c]) =
      offsets start w ++ [start + (String.ofList (w ++ [c])).utf8ByteSize] := by
  induction w generalizing start with
  | nil => simp [offsets]
  | cons d w ih =>
    rw [List.cons_append, offsets, ih, offsets, Offset.utf8ByteSize_cons, Nat.add_assoc]
    rfl

/-- What a recorder holds when a match has come so far that begins at an offset: the states with
their offsets if there are groups to report, and nothing of what it may have held before. -/
structure Recorded (dfa : Dfa) (start : Nat) (s : Scan) (r : Recorder) : Prop where
  states_eq : dfa.hasGroups = true → r.states.toList = s.states.reverse
  offsets_eq : dfa.hasGroups = true →
    r.offsets.toList = (offsets start s.read.reverse).take s.states.length
  opened_eq : r.opened = []
  spans_eq : r.spans = []

/-- A further state is recorded with the offset behind the character that leads there. -/
theorem Recorded.advance (h : dfa.Recorded start s r)
    (hstates : s.states.length = s.read.length + 1) {out : String} {c : Char} {next : Nat}
    (hout : out.utf8ByteSize = start + (String.ofList (c :: s.read).reverse).utf8ByteSize) :
    dfa.Recorded start (s.advance dfa c next) (dfa.record r next out) := by
  unfold record
  split
  · next hgroups =>
    refine ⟨fun _ => ?_, fun _ => ?_, h.opened_eq, h.spans_eq⟩
    · show (r.states.push next).toList = (next :: s.states).reverse
      rw [Array.toList_push, h.states_eq hgroups, List.reverse_cons]
    · show (r.offsets.push out.utf8ByteSize).toList =
        (offsets start (c :: s.read).reverse).take (next :: s.states).length
      rw [Array.toList_push, h.offsets_eq hgroups, hout, List.reverse_cons, offsets_concat,
        List.take_of_length_le (by rw [length_offsets, List.length_reverse]; omega),
        List.take_of_length_le]
      rw [List.length_append, length_offsets, List.length_reverse, List.length_singleton,
        List.length_cons]
      omega
  · next hgroups =>
    exact ⟨fun h' => absurd h' hgroups, fun h' => absurd h' hgroups, h.opened_eq, h.spans_eq⟩

/-- A character that leads nowhere is not recorded. -/
theorem Recorded.read (h : dfa.Recorded start s r) (hstates : s.states.length = s.read.length + 1)
    (c : Char) : dfa.Recorded start { s with read := c :: s.read } r := by
  refine ⟨h.states_eq, fun hgroups => ?_, h.opened_eq, h.spans_eq⟩
  rw [h.offsets_eq hgroups]
  show _ = (offsets start (c :: s.read).reverse).take s.states.length
  rw [List.reverse_cons, offsets_concat, List.take_append_of_le_length]
  rw [length_offsets, List.length_reverse]
  omega

theorem recorded_scanRecording (state : Nat) (limit : Option Nat) (src : Source) {out : String}
    (h : dfa.Recorded start s r) (hstates : s.states.length = s.read.length + 1)
    (hout : out.utf8ByteSize = start + (String.ofList s.read.reverse).utf8ByteSize) :
    dfa.Recorded start (dfa.scanRecording state s out r limit src).2.1
      (dfa.scanRecording state s out r limit src).2.2.2 := by
  fun_induction dfa.scanRecording state s out r limit src with
  | case1 => exact h
  | case2 => exact h
  | case3 => exact h
  | case4 state s out r limit src _ c => exact h.read hstates c
  | case5 state s out r limit src _ c src' _ next _ _ ih =>
    have hpush : (out.push c).utf8ByteSize =
        start + (String.ofList (c :: s.read).reverse).utf8ByteSize := by
      rw [List.reverse_cons, String.ofList_append, String.utf8ByteSize_append, ← Nat.add_assoc,
        ← hout, String.utf8ByteSize_push]
      simp
    exact ih (h.advance hstates hpush) (congrArg (· + 1) hstates) hpush

theorem recorded_start (r : Recorder) (out : String) :
    dfa.Recorded out.utf8ByteSize dfa.scanStart (dfa.record r.reset 0 out) := by
  unfold record
  split
  · exact ⟨fun _ => rfl, fun _ => rfl, rfl, rfl⟩
  · next hgroups =>
    exact ⟨fun h => absurd h hgroups, fun h => absurd h hgroups, rfl, rfl⟩

/-- The spans read off the records are those read off the match. -/
theorem Recorded.spans_analyze (h : dfa.Recorded start s r) (hgroups : dfa.hasGroups = true)
    (length : Nat) : (r.analyze dfa a (length + 1)).spans =
      dfa.spansOf a start s.read.reverse s.states.reverse length := by
  have hrecords : (r.states.take (length + 1)).toList.zip (r.offsets.take (length + 1)).toList =
      (s.states.reverse.zip (offsets start s.read.reverse)).take (length + 1) := by
    have hwhole : s.states.reverse.zip ((offsets start s.read.reverse).take s.states.length) =
        s.states.reverse.zip (offsets start s.read.reverse) := by
      rw [← take_zip, List.take_of_length_le]
      rw [List.length_zip, List.length_reverse]
      exact Nat.min_le_left _ _
    have htake (records : Array Nat) :
        (records.take (length + 1)).toList = records.toList.take (length + 1) := by simp
    rw [htake, htake, h.states_eq hgroups, h.offsets_eq hgroups, ← hwhole]
    exact (List.take_zipWith ..).symm
  rw [spansOf_eq_analyze, analyze_eq, ← hrecords]
  unfold Recorder.analyze
  simp only
  split
  · next hempty =>
    rw [← Array.all_toList] at hempty
    refine (Span.ofTrail_of_forall_nil (markersMet_eq_nil fun p hp => ?_)).symm
    exact List.all_eq_true.1 hempty p.1 (List.of_mem_zip hp).1
  · rfl

/-- If there are no groups to report, nothing is read off, and nothing was left. -/
theorem Recorded.spans_matched (h : dfa.Recorded start s r) (length : Nat) :
    (if dfa.hasGroups then r.analyze dfa a (length + 1) else r).spans =
      dfa.spansOf a start s.read.reverse s.states.reverse length := by
  by_cases hgroups : dfa.hasGroups = true
  · rw [if_pos hgroups]
    exact h.spans_analyze hgroups length
  · rw [if_neg hgroups, spansOf, if_neg hgroups, h.spans_eq]

/-- Whatever a recorder comes with, the match is the one without it, and the recorder has its
spans. -/
theorem matchRecording_eq (dfa : Dfa) (limit : Option Nat) (src : Source) (out : String)
    (r : Recorder) :
    (dfa.matchRecording limit src out r).1 = dfa.matchLimited limit src out ∧
      (dfa.matchRecording limit src out r).2.spans = (dfa.matchLimited limit src out).spans := by
  have hscan := dfa.scan_of_scanRecording 0 dfa.scanStart out (dfa.record r.reset 0 out) limit src
  have hrecorded := recorded_scanRecording 0 limit src (dfa.recorded_start r out) rfl rfl
  unfold matchRecording matchLimited
  rw [hscan]
  generalize dfa.scanRecording 0 dfa.scanStart out (dfa.record r.reset 0 out) limit src = outcome
    at hrecorded ⊢
  obtain ⟨stop, ⟨read, length, states, best⟩, src', r'⟩ := outcome
  have hnil : r'.spans = [] := hrecorded.spans_eq
  have hmatched := fun a length => hrecorded.spans_matched (a := a) length
  -- neither a failure nor the end of the input nor the lack of a match reads anything off
  cases stop with
  | failed reason => exact ⟨congrArg (MatchStep.mk _ _ _) hnil, hnil⟩
  | exhausted =>
    cases read with
    | nil => exact ⟨congrArg (MatchStep.mk _ _ _) hnil, hnil⟩
    | cons c read =>
      cases best with
      | none => exact ⟨congrArg (MatchStep.mk _ _ _) hnil, hnil⟩
      | some best => exact ⟨congrArg (MatchStep.mk _ _ _) (hmatched _ _), hmatched _ _⟩
  | stuck =>
    cases best with
    | none => exact ⟨congrArg (MatchStep.mk _ _ _) hnil, hnil⟩
    | some best => exact ⟨congrArg (MatchStep.mk _ _ _) (hmatched _ _), hmatched _ _⟩

/-! ## The offsets of a way -/

variable {w : List Char} {states : List Nat}

theorem le_of_mem_offsets {offset : Nat} (h : offset ∈ offsets start w) : start ≤ offset := by
  obtain ⟨k, hk⟩ := List.mem_iff_getElem?.1 h
  rw [getElem?_offsets] at hk
  split at hk
  · rw [← Option.some.inj hk]
    exact Nat.le_add_right _ _
  · cases hk

theorem pairwise_offsets (start : Nat) (w : List Char) : (offsets start w).Pairwise (· < ·) := by
  induction w generalizing start with
  | nil => exact List.pairwise_singleton _ _
  | cons c w ih =>
    refine List.pairwise_cons.2 ⟨fun offset hoffset => ?_, ih _⟩
    have hle := le_of_mem_offsets hoffset
    have := c.utf8Size_pos
    omega

/-- The positions of a match are the offsets of its characters. -/
theorem map_fst_wayOf (h : w.length < states.length) :
    (dfa.wayOf a start w states).map Prod.fst = offsets start w := by
  rw [wayOf, markersMet, List.map_map]
  exact List.map_snd_zip (by rw [length_offsets]; omega)

/-- Between two offsets of a way, one no later than the other, lies a part of its text. -/
theorem exists_delimits {out : String} {span : Span}
    (hstart : span.start ∈ offsets out.utf8ByteSize w)
    (hstop : span.stop ∈ offsets out.utf8ByteSize w) (hle : span.start ≤ span.stop) :
    ∃ b e, b ≤ e ∧ e ≤ w.length ∧ span.Delimits out w b e := by
  obtain ⟨b, hb⟩ := List.mem_iff_getElem?.1 hstart
  obtain ⟨e, he⟩ := List.mem_iff_getElem?.1 hstop
  have hbe : b ≤ e := by
    by_contra hlt
    obtain ⟨hb', hb⟩ := List.getElem?_eq_some_iff.1 hb
    obtain ⟨he', he⟩ := List.getElem?_eq_some_iff.1 he
    have := List.pairwise_iff_getElem.1 (pairwise_offsets out.utf8ByteSize w) e b he' hb' (by omega)
    omega
  rw [getElem?_offsets] at hb he
  split at hb
  · split at he
    · next hew =>
      exact ⟨b, e, hbe, hew, Span.delimits_of_offsets hbe (Option.some.inj hb).symm
        (Option.some.inj he).symm⟩
    · cases he
  · cases hb

section Way

variable {way : List (Nat × List Marker)} (hway : ∀ p ∈ way, Marker.Ordered p.2)
  (hoffsets : way.map Prod.fst = offsets start w)

include hway hoffsets

/-- The spans of a way lie between its offsets, and those of a group follow one another. -/
theorem spans_of_way (group : Nat) :
    (Span.ofGroup (Span.ofTrail [] way) group).Pairwise Span.Before ∧
      ∀ span ∈ Span.ofGroup (Span.ofTrail [] way) group, span.start ≤ span.stop ∧
        span.start ∈ offsets start w ∧ span.stop ∈ offsets start w := by
  have htrack : (Track.ofWay group way).map Prod.fst = offsets start w := by
    rw [Track.ofWay, List.map_map, ← hoffsets]
    rfl
  have hpairwise := pairwise_offsets start w
  rw [← htrack, List.pairwise_map] at hpairwise
  rw [Span.ofGroup_ofTrail List.Pairwise.nil hway]
  obtain ⟨hbefore, hproper⟩ :=
    OpenSpan.run_succession none (by simp) hpairwise
  have hbetween := OpenSpan.run_invariant (P := (· ∈ offsets start w)) none (by simp)
    fun p hp => htrack ▸ List.mem_map_of_mem hp
  exact ⟨hbefore, fun span hspan => ⟨hproper span hspan, hbetween span hspan⟩⟩

end Way

/-! ## The spans of a match -/

section Match

variable {limit : Option Nat} {src : Source} {out : String}

/-- A match for the same action of the same text, behind as many bytes, has the same spans. -/
theorem spans_congr {limit' : Option Nat} {src' : Source} {out' : String}
    (h : (dfa.matchLimited limit src out).result = .ok (.matched a))
    (h' : (dfa.matchLimited limit' src' out').result = .ok (.matched a))
    (hadded : (dfa.matchLimited limit' src' out').added = (dfa.matchLimited limit src out).added)
    (hsize : out'.utf8ByteSize = out.utf8ByteSize) :
    (dfa.matchLimited limit' src' out').spans = (dfa.matchLimited limit src out).spans := by
  obtain ⟨states, hspans, hlt, htrail, -⟩ := exists_states_of_match h
  obtain ⟨states', hspans', hlt', htrail', -⟩ := exists_states_of_match h'
  rw [hadded] at hspans' hlt' htrail'
  rw [hspans, hspans', hsize]
  -- each prefix leads to one state only
  refine congrArg _ (wayOf_congr hlt' hlt fun k hk i j hi hj => ?_)
  have hi := run_eq_some.2 (htrail' k hk i hi)
  have hj := run_eq_some.2 (htrail k hk j hj)
  rw [Option.some.inj (hi.symm.trans hj)]

end Match

end Dfa

/-- What lies between two characters of a text ends no later than the text. -/
theorem Span.Delimits.stop_le {span : Span} {out : String} {w : List Char} {b e : Nat}
    (h : span.Delimits out w b e) : span.stop ≤ (out ++ String.ofList w).utf8ByteSize := by
  have hparts : w.take e ++ w.drop e = w := List.take_append_drop e w
  rw [h.stop_eq, String.utf8ByteSize_append, ← hparts, String.ofList_append,
    String.utf8ByteSize_append, hparts]
  omega

namespace Nfa

open Pattern

variable {nfa : Nfa} {dfa : Dfa} {catalog : Catalog} {failPolicy : FailPolicy}
  {eofAction : Option ActionId}

/-- The spans of a match lie between its characters, and those of a group follow one another. -/
theorem spans_of_match (h : nfa.compile catalog failPolicy eofAction = .ok dfa) {a : ActionId}
    {limit : Option Nat} {src : Source} {out : String}
    (hresult : (dfa.matchLimited limit src out).result = .ok (.matched a)) :
    (∀ span ∈ (dfa.matchLimited limit src out).spans, span.start ≤ span.stop ∧
      ∃ b e, b ≤ e ∧ e ≤ (dfa.matchLimited limit src out).added.length ∧
        span.Delimits out (dfa.matchLimited limit src out).added b e) ∧
      ∀ group,
        (Span.ofGroup (dfa.matchLimited limit src out).spans group).Pairwise Span.Before := by
  obtain ⟨states, hspans, hlt, -⟩ := Dfa.exists_states_of_match hresult
  have hway : ∀ p ∈ dfa.wayOf a out.utf8ByteSize (dfa.matchLimited limit src out).added states,
      Marker.Ordered p.2 := ordered_markersMet h a _
  have hgroup := Dfa.spans_of_way hway (Dfa.map_fst_wayOf hlt)
  rw [hspans]
  refine ⟨fun span hspan => ?_, fun group => (hgroup group).1⟩
  obtain ⟨hle, hstart, hstop⟩ := (hgroup span.group).2 span
    (List.mem_filter.2 ⟨hspan, decide_eq_true rfl⟩)
  exact ⟨hle, Dfa.exists_delimits hstart hstop hle⟩

/-- What a recorder holds after a match, whatever it comes with. The match is the one without a
recorder, and the spans are those of the match. After a match, each span lies on boundaries of
characters in what was added to the output, so that its text can be taken, and the spans of a group
begin one after the other, each one where those before have ended or later; they are the spans of
every match for the same action of the same text behind as many bytes. After anything else there are
none. -/
theorem spans_fresh (h : nfa.compile catalog failPolicy eofAction = .ok dfa) (limit : Option Nat)
    (src : Source) (out : String) (r : Recorder) :
    let after := dfa.matchRecording limit src out r
    after.1 = dfa.matchLimited limit src out ∧ after.2.spans = after.1.spans ∧
      (∀ a, after.1.result = .ok (.matched a) →
        (∀ span ∈ after.2.spans,
          out.utf8ByteSize ≤ span.start ∧ span.start ≤ span.stop ∧
            span.stop ≤ (after.1.extend out).utf8ByteSize ∧
            (∃ b e, b ≤ e ∧ e ≤ after.1.added.length ∧ span.Delimits out after.1.added b e) ∧
            (span.text? (after.1.extend out)).isSome) ∧
        (∀ group, (Span.ofGroup after.2.spans group).Pairwise Span.Before) ∧
        ∀ limit' src' out' r', out'.utf8ByteSize = out.utf8ByteSize →
          let other := dfa.matchRecording limit' src' out' r'
          other.1.result = .ok (.matched a) → other.1.added = after.1.added →
            other.2.spans = after.2.spans) ∧
      ((∀ a, after.1.result ≠ .ok (.matched a)) → after.2.spans = []) := by
  intro after
  obtain ⟨hstep, hspans⟩ := dfa.matchRecording_eq limit src out r
  have hspans : after.2.spans = after.1.spans := by rw [hspans, ← hstep]
  refine ⟨hstep, hspans, fun a hresult => ?_, fun hnone => ?_⟩
  · rw [hspans, hstep]
    rw [hstep] at hresult
    obtain ⟨hbetween, hordered⟩ := spans_of_match h hresult
    refine ⟨fun span hspan => ?_, hordered, fun limit' src' out' r' hsize => ?_⟩
    · obtain ⟨hle, b, e, hbe, he, hdelimits⟩ := hbetween span hspan
      refine ⟨?_, hle, hdelimits.stop_le, ⟨b, e, hbe, he, hdelimits⟩, ?_⟩
      · rw [hdelimits.start_eq]
        exact Nat.le_add_right _ _
      · rw [MatchStep.extend, hdelimits.text_eq]
        rfl
    · intro other hresult' hadded
      obtain ⟨hstep', hspans'⟩ := dfa.matchRecording_eq limit' src' out' r'
      rw [hspans']
      exact Dfa.spans_congr hresult (hstep' ▸ hresult') (hstep' ▸ hadded) hsize
  · rw [hspans, hstep]
    exact Dfa.spans_eq_nil out (hstep ▸ hnone)

/-- In `ab` the group behind the option has one span, also if the recorder comes with others. -/
theorem spans_fresh_behindOption :
    ∃ nfa dfa, ofPattern {} "a?(!b)" = .ok nfa ∧
      (nfa.addAction 7).compile clashing .copy none = .ok dfa ∧
      let stale : Recorder := ⟨#[3, 1], #[9], [⟨0, 4, 5, true⟩], [⟨4, 9, 0⟩, ⟨2, 3, 1⟩]⟩
      let after := dfa.matchRecording none (Source.ofString "ab") "" stale
      after.2.spans = [⟨1, 2, 0⟩] ∧ ∀ span ∈ after.2.spans, (span.text? "ab").isSome := by
  obtain ⟨nfa, hpattern, dfa, hdfa, hresult, hadded, hreported⟩ := exists_match_behindOption
  refine ⟨nfa, dfa, hpattern, hdfa, ?_⟩
  intro stale after
  obtain ⟨hstep, hspans, hmatched, -⟩ :=
    spans_fresh hdfa none (Source.ofString "ab") "" stale
  have hspans : after.2.spans = [⟨1, 2, 0⟩] := by
    rw [hspans, hstep]
    exact hreported
  refine ⟨hspans, fun span hspan => ?_⟩
  have hall : after.1.extend "" = "ab" := by
    have hadded : after.1.added = ['a', 'b'] := by
      rw [hstep]
      exact hadded
    rw [MatchStep.extend, hadded]
    rfl
  obtain ⟨-, -, -, -, htext⟩ := (hmatched 7 (hstep ▸ hresult)).1 span hspan
  exact hall ▸ htext

end Nfa

end LongestMatch
