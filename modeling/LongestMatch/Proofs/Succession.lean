import LongestMatch.Proofs.Merging

/-!
# The spans of a group follow one another

The positions of a way have ascending offsets. A slot that is taken along them reports spans between
these offsets (`OpenSpan.run_invariant`), none of which ends before it begins, and each of which has
ended where the next one begins (`OpenSpan.run_succession`).
-/

namespace LongestMatch

namespace Span

/-- A span begins before another one, and has ended where that begins. -/
structure Before (s t : Span) : Prop where
  start_lt : s.start < t.start
  stop_le : s.stop ≤ t.start

end Span

namespace OpenSpan

variable {o : OpenSpan} {open? : Option OpenSpan} {m : Marker} {m? : Option Marker} {span : Span}
  {track : Track} {position : Nat} {P : Nat → Prop}

theorem eq_of_mem_close (h : span ∈ o.close) : span = ⟨o.start, o.stop, o.group⟩ := by
  unfold close at h
  split at h
  · exact List.mem_singleton.1 h
  · cases h

theorem pairwise_close (o : OpenSpan) : o.close.Pairwise Span.Before := by
  unfold close
  split
  · exact List.pairwise_singleton _ _
  · exact List.Pairwise.nil

/-! ## The offsets of spans -/

/-- What is open has begun and come as far as at offsets of a kind. -/
def At (P : Nat → Prop) (o : OpenSpan) : Prop :=
  P o.start ∧ P o.stop

theorem At.grow (h : o.At P) (hposition : P position) : (o.grow m position).At P := by
  unfold OpenSpan.grow
  split
  · exact ⟨h.1, hposition⟩
  · exact h

theorem At.of_mem_close (h : o.At P) (hspan : span ∈ o.close) : P span.start ∧ P span.stop := by
  rw [eq_of_mem_close hspan]
  exact h

theorem at_beginAt {group : Nat} {complete : Bool} (hposition : P position) :
    (beginAt group position complete).At P :=
  ⟨hposition, hposition⟩

/-- What may become of a slot at a position: it stays empty, a span begins, the open one is over, it
goes on, or it ends and one begins anew. -/
inductive Turned (position : Nat) (open? : Option OpenSpan) :
    List Span × Option OpenSpan → Prop where
  | idle : Turned position open? ([], none)
  | begins (m : Marker) : Turned position open? ([], some (beginAt m.group position m.stop))
  | passes {o : OpenSpan} (ho : o ∈ open?) : Turned position open? (o.close, none)
  | goesOn {o : OpenSpan} (ho : o ∈ open?) (m : Marker) :
      Turned position open? ([], some (o.grow m position))
  | anew {o : OpenSpan} (ho : o ∈ open?) (m : Marker) :
      Turned position open? ((o.grow m position).close, some (beginAt m.group position false))

theorem turned_turn (position : Nat) (open? : Option OpenSpan) (m? : Option Marker) :
    Turned position open? (turn position open? m?) := by
  cases open? with
  | none =>
    cases m? with
    | none => exact .idle
    | some m =>
      rw [turn]
      split
      · exact .begins m
      · exact .idle
  | some o =>
    cases m? with
    | none => exact .passes rfl
    | some m =>
      rw [turn, advance_eq]
      split
      · exact .anew rfl m
      · exact .goesOn rfl m

section Turned

variable {turned : List Span × Option OpenSpan} (h : Turned position open? turned)

include h

theorem Turned.invariant (hopen : ∀ o ∈ open?, o.At P) (hposition : P position) :
    (∀ span ∈ turned.1, P span.start ∧ P span.stop) ∧ ∀ o ∈ turned.2, o.At P := by
  cases h with
  | idle => simp
  | begins m => simpa using at_beginAt hposition
  | passes ho => exact ⟨fun span hspan => (hopen _ ho).of_mem_close hspan, by simp⟩
  | goesOn ho m => simpa using (hopen _ ho).grow hposition
  | anew ho m =>
    refine ⟨fun span hspan => ((hopen _ ho).grow hposition).of_mem_close hspan, ?_⟩
    simpa using at_beginAt hposition

end Turned

/-- A slot reports spans between the offsets of its track. -/
theorem run_invariant (open? : Option OpenSpan) (hopen : ∀ o ∈ open?, o.At P)
    (htrack : ∀ p ∈ track, P p.1) :
    ∀ span ∈ run open? track, P span.start ∧ P span.stop := by
  induction track generalizing open? with
  | nil =>
    intro span hspan
    rw [run, List.mem_flatMap] at hspan
    obtain ⟨o, ho, hspan⟩ := hspan
    exact (hopen o (Option.mem_toList.1 ho)).of_mem_close hspan
  | cons p track ih =>
    obtain ⟨hp, htrack⟩ := List.forall_mem_cons.1 htrack
    obtain ⟨hnow, hlater⟩ := (turned_turn p.1 open? p.2).invariant hopen hp
    intro span hspan
    rcases List.mem_append.1 hspan with hspan | hspan
    · exact hnow span hspan
    · exact ih _ hlater htrack span hspan

/-! ## One after another -/

/-- What is open has begun and has not come as far as an offset yet. -/
def EndsBefore (position : Nat) (o : OpenSpan) : Prop :=
  o.start ≤ o.stop ∧ o.stop < position

theorem EndsBefore.grow (h : o.EndsBefore position) :
    o.start ≤ (o.grow m position).stop ∧ (o.grow m position).stop ≤ position := by
  obtain ⟨hle, hstop⟩ := h
  unfold OpenSpan.grow
  split
  · exact ⟨hle.trans hstop.le, Nat.le_refl _⟩
  · exact ⟨hle, hstop.le⟩

section Turned

variable {turned : List Span × Option OpenSpan} (h : Turned position open? turned)

include h

/-- At a position not more than one span is reported. -/
theorem Turned.pairwise : turned.1.Pairwise Span.Before := by
  cases h with
  | idle => exact List.Pairwise.nil
  | begins => exact List.Pairwise.nil
  | passes => exact pairwise_close _
  | goesOn => exact List.Pairwise.nil
  | anew => exact pairwise_close _

variable (hopen : ∀ o ∈ open?, o.EndsBefore position)

include hopen

/-- What is open after a position has come as far as that at most. -/
theorem Turned.stop_le : ∀ o ∈ turned.2, o.start ≤ o.stop ∧ o.stop ≤ position := by
  have hbegins : ∀ group complete, (beginAt group position complete).start ≤
      (beginAt group position complete).stop ∧ (beginAt group position complete).stop ≤ position :=
    fun _ _ => ⟨Nat.le_refl _, Nat.le_refl _⟩
  cases h with
  | idle => simp
  | begins m => simpa using hbegins _ _
  | passes ho => simp
  | goesOn ho m => simpa [start_grow] using (hopen _ ho).grow
  | anew ho m => simpa using hbegins _ _

/-- What is reported at a position began before it and has ended by then, and what is open after it
begins there. -/
theorem Turned.reports : ∀ span ∈ turned.1, span.start ≤ span.stop ∧ span.start < position ∧
    span.stop ≤ position ∧ ∀ o ∈ turned.2, o.At (position ≤ ·) := by
  cases h with
  | idle => simp
  | begins => simp
  | passes ho =>
    intro span hspan
    obtain ⟨hle, hstop⟩ := hopen _ ho
    rw [eq_of_mem_close hspan]
    exact ⟨hle, hle.trans_lt hstop, hstop.le, by simp⟩
  | goesOn => simp
  | anew ho m =>
    intro span hspan
    obtain ⟨hle, hstop⟩ := hopen _ ho
    obtain ⟨hle', hstop'⟩ := (hopen _ ho).grow (m := m)
    rw [eq_of_mem_close hspan, start_grow]
    exact ⟨hle', hle.trans_lt hstop, hstop', by simpa using at_beginAt (Nat.le_refl position)⟩

end Turned

/-- Along ascending offsets no span of a slot ends before it begins, and each has ended where the
next one begins. -/
theorem run_succession (open? : Option OpenSpan)
    (hopen : ∀ o ∈ open?, o.start ≤ o.stop ∧ ∀ p ∈ track, o.stop < p.1)
    (htrack : track.Pairwise fun p q => p.1 < q.1) :
    (run open? track).Pairwise Span.Before ∧ ∀ span ∈ run open? track, span.start ≤ span.stop := by
  induction track generalizing open? with
  | nil =>
    cases open? with
    | none => exact ⟨List.Pairwise.nil, by simp [run]⟩
    | some o =>
      have hrun : run (some o) [] = o.close := by simp [run]
      rw [hrun]
      refine ⟨pairwise_close o, fun span hspan => ?_⟩
      rw [eq_of_mem_close hspan]
      exact (hopen o rfl).1
  | cons p track ih =>
    obtain ⟨hnext, htrack⟩ := List.pairwise_cons.1 htrack
    have hturned := turned_turn p.1 open? p.2
    have hbefore : ∀ o ∈ open?, o.EndsBefore p.1 :=
      fun o ho => ⟨(hopen o ho).1, (hopen o ho).2 p List.mem_cons_self⟩
    have hreports := hturned.reports hbefore
    have hlater : ∀ o ∈ (turn p.1 open? p.2).2, o.start ≤ o.stop ∧ ∀ q ∈ track, o.stop < q.1 := by
      intro o ho
      obtain ⟨hle, hstop⟩ := hturned.stop_le hbefore o ho
      exact ⟨hle, fun q hq => hstop.trans_lt (hnext q hq)⟩
    obtain ⟨hpairwise, hproper⟩ := ih _ hlater htrack
    refine ⟨List.pairwise_append.2 ⟨hturned.pairwise, hpairwise, fun s hs t ht => ?_⟩,
      fun span hspan => ?_⟩
    · -- all that is reported later begins at this position or after it
      obtain ⟨-, hlt, hle, hat⟩ := hreports s hs
      have ht := (run_invariant _ hat (fun q hq => (hnext q hq).le) t ht).1
      exact ⟨hlt.trans_le ht, hle.trans ht⟩
    · rcases List.mem_append.1 hspan with hspan | hspan
      · exact (hreports span hspan).1
      · exact hproper span hspan

end OpenSpan

end LongestMatch
