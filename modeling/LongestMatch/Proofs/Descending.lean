import LongestMatch.Proofs.Following

/-!
# The parser keeps to the course of the pattern

An alternation, its sequences and their operands call each other, and each of them keeps to the
course of the pattern from where it begins (`Faithful`). The bound on the depth of the calls is
never reached: three calls in a row consume a character at least. So reading a pattern comes to the
same as carrying out its instructions (`read_eq_runPattern`).
-/

namespace LongestMatch

namespace Pattern

namespace Descent

/-! ## Operands and groups -/

/-- The pattern ends, or a bar or a closing bracket stands at the position. -/
def EndsSequence (pattern : List Char) (position : Nat) : Prop :=
  ∀ ch, pattern[position]? = some ch → ch = '|' ∨ ch = ')'

/-- The pattern ends, or a closing bracket stands at the position. -/
def EndsAlternation (pattern : List Char) (position : Nat) : Prop :=
  ∀ ch, pattern[position]? = some ch → ch = ')'

theorem EndsSequence.head {pattern : List Char} {position : Nat}
    (h : EndsSequence pattern position) :
    ∀ l ∈ (lexemesAt pattern position).head?, l.kind = .bar ∨ l.kind = .closeGroup := by
  intro l hl
  cases hch : pattern[position]? with
  | none =>
    rw [lexemesAt_end hch] at hl
    cases hl
  | some ch =>
    rcases h ch hch with rfl | rfl
    · rw [lexemesAt_bar hch] at hl
      cases hl
      exact .inl rfl
    · rw [lexemesAt_close hch] at hl
      cases hl
      exact .inr rfl

/-- With so much fuel, everything up to the end of the pattern is read as its course tells. An
alternation calls a sequence, this an operand, and this an alternation again behind one character
more. -/
structure Faithful {σ : Type} (machine : Machine σ) (pattern : List Char) (fuel : Nat) : Prop where
  alternation : ∀ (p : Progress) (Q : Unit → Nat → Course → Prop), p.level = {} →
    3 * pattern.length + 2 ≤ fuel + 3 * p.position →
    (∀ stop, p.position ≤ stop → EndsAlternation pattern stop →
      Q () stop (courseAt pattern (p.withSequence stop))) →
    Keeps machine pattern (alternation machine pattern fuel p.groups.length) p.position
      (courseAt pattern p) Q
  alternatives : ∀ (p : Progress) (Q : Unit → Nat → Course → Prop), p.level = { begun := true } →
    3 * pattern.length + 1 ≤ fuel + 3 * p.position → EndsSequence pattern p.position →
    (∀ stop, p.position ≤ stop → EndsAlternation pattern stop →
      Q () stop (courseAt pattern (p.withSequence stop))) →
    Keeps machine pattern (alternatives machine pattern fuel p.groups.length) p.position
      (courseAt pattern p) Q
  sequence : ∀ (p : Progress) (Q : Unit → Nat → Course → Prop) (items : Nat),
    p.level.loose = false → p.level.begun = decide (0 < items) →
    3 * pattern.length + 1 ≤ fuel + 3 * p.position →
    (∀ stop, p.position ≤ stop → EndsSequence pattern stop →
      Q () stop (courseAt pattern (p.withSequence stop))) →
    Keeps machine pattern (sequence machine pattern fuel p.groups.length items) p.position
      (courseAt pattern p) Q
  operand : ∀ (p : Progress) (Q : Unit → Nat → Course → Prop) (ch : Char),
    p.level.loose = false → pattern[p.position]? = some ch → ch ∈ ['(', '[', '.', '\\'] →
    3 * pattern.length ≤ fuel + 3 * p.position →
    (∀ stop, p.position < stop → Q () stop (courseAt pattern (p.withOperand stop))) →
    Keeps machine pattern (operand machine pattern fuel p.groups.length) p.position
      (courseAt pattern p) Q

section Whole

variable {σ : Type} {machine : Machine σ} {pattern : List Char} {p : Progress} {ch : Char}
  {fuel items : Nat} {Q : Unit → Nat → Course → Prop}

theorem faithful_zero : Faithful machine pattern 0 where
  alternation p Q _ hfuel _ := fun hle => absurd hfuel (by omega)
  alternatives p Q _ hfuel _ _ := fun hle => absurd hfuel (by omega)
  sequence p Q items _ _ hfuel _ := fun hle => absurd hfuel (by omega)
  operand p Q ch _ hch _ hfuel _ := fun hle =>
    absurd hfuel (by have := (List.getElem?_eq_some_iff.1 hch).1; omega)

/-- After the first sequence the others follow. -/
theorem Faithful.alternation_succ (ih : Faithful machine pattern fuel) (hlevel : p.level = {})
    (hfuel : 3 * pattern.length + 2 ≤ fuel + 1 + 3 * p.position)
    (hQ : ∀ stop, p.position ≤ stop → EndsAlternation pattern stop →
      Q () stop (courseAt pattern (p.withSequence stop))) :
    Keeps machine pattern (Descent.alternation machine pattern (fuel + 1) p.groups.length)
      p.position (courseAt pattern p) Q := by
  obtain ⟨level, groups, start⟩ := p
  subst hlevel
  have hfuel : 3 * pattern.length + 2 ≤ fuel + 1 + 3 * start := hfuel
  have hfirst : 3 * pattern.length + 1 ≤ fuel + 3 * start := by omega
  refine keeps_bind (ih.sequence ⟨{}, groups, start⟩ _ 0 rfl rfl hfirst fun mid hmid hends => ?_)
  have hle : start ≤ mid := hmid
  have hrest : 3 * pattern.length + 1 ≤ fuel + 3 * mid := by omega
  exact ih.alternatives ⟨{ begun := true }, groups, mid⟩ Q rfl hrest hends fun stop hstop =>
    hQ stop (Nat.le_trans hle hstop)

/-- Behind every further alternative it is joined to the ones before. -/
theorem Faithful.alternatives_succ (ih : Faithful machine pattern fuel)
    (hlevel : p.level = { begun := true })
    (hfuel : 3 * pattern.length + 1 ≤ fuel + 1 + 3 * p.position)
    (hends : EndsSequence pattern p.position)
    (hQ : ∀ stop, p.position ≤ stop → EndsAlternation pattern stop →
      Q () stop (courseAt pattern (p.withSequence stop))) :
    Keeps machine pattern (Descent.alternatives machine pattern (fuel + 1) p.groups.length)
      p.position (courseAt pattern p) Q := by
  obtain ⟨level, groups, start⟩ := p
  subst hlevel
  have hfuel : 3 * pattern.length + 1 ≤ fuel + 1 + 3 * start := hfuel
  refine keeps_bind (keeps_peek ?_)
  split
  · next hbar =>
    have hlength : start < pattern.length := (List.getElem?_eq_some_iff.1 hbar).1
    have hstep : Progress.step ⟨{ begun := true }, groups, start⟩ ⟨.bar, start, start + 1⟩ =
        ([], .ok ⟨{ alternatives := true }, groups, start + 1⟩) := rfl
    have hnext : 3 * pattern.length + 1 ≤ fuel + 3 * (start + 1) := by omega
    rw [courseAt, lexemesAt_bar hbar, course_ok hstep]
    refine keeps_bind (keeps_advance hlength (keeps_bind (ih.sequence
      ⟨{ alternatives := true }, groups, start + 1⟩ _ 0 rfl rfl hnext fun mid hmid hends => ?_)))
    have hle : start + 1 ≤ mid := hmid
    have hrest : 3 * pattern.length + 1 ≤ fuel + 3 * mid := by omega
    -- the parser joins the alternatives here, the instructions do so in front of the next lexeme
    have hor : courseAt pattern ⟨{ alternatives := true, begun := true }, groups, mid⟩ =
        (courseAt pattern ⟨{ begun := true }, groups, mid⟩).after [(.or, mid)] :=
      course_endSequence rfl hends.head
    show Keeps machine pattern _ mid
      (courseAt pattern ⟨{ alternatives := true, begun := true }, groups, mid⟩) Q
    rw [hor]
    exact keeps_bind (keeps_emit (ih.alternatives ⟨{ begun := true }, groups, mid⟩ Q rfl hrest hends
      fun stop hstop => hQ stop (Nat.le_trans (Nat.le_of_succ_le hle) hstop)))
  · next hbar =>
    refine keeps_pure (hQ start (Nat.le_refl _) fun ch hch => ?_)
    exact (hends ch hch).resolve_left fun heq => hbar (heq ▸ hch)

/-- A sequence that begins here, or goes on, ends where it is read to. -/
theorem Faithful.sequence_succ (ih : Faithful machine pattern fuel) (hloose : p.level.loose = false)
    (hbegun : p.level.begun = decide (0 < items))
    (hfuel : 3 * pattern.length + 1 ≤ fuel + 1 + 3 * p.position)
    (hQ : ∀ stop, p.position ≤ stop → EndsSequence pattern stop →
      Q () stop (courseAt pattern (p.withSequence stop))) :
    Keeps machine pattern (Descent.sequence machine pattern (fuel + 1) p.groups.length items)
      p.position (courseAt pattern p) Q := by
  -- the sequence is over and has an operand
  have hdone (hitems : ¬items = 0) (hends : EndsSequence pattern p.position) :
      Q () p.position (courseAt pattern p) := by
    have h := hQ p.position (Nat.le_refl _) hends
    rwa [Progress.withSequence_self hloose
      (hbegun.trans (decide_eq_true (Nat.pos_of_ne_zero hitems)))] at h
  -- one more operand has been joined to the sequence, which goes on
  have hgo (mid more : Nat) (hmid : p.position < mid) (hmore : 0 < more) :
      Keeps machine pattern (Descent.sequence machine pattern fuel p.groups.length more) mid
        (courseAt pattern (p.withSequence mid)) Q := by
    have hrest : 3 * pattern.length + 1 ≤ fuel + 3 * mid := by omega
    exact ih.sequence (p.withSequence mid) Q more rfl (decide_eq_true hmore).symm hrest
      fun stop hstop => hQ stop (Nat.le_trans hmid.le hstop)
  have hempty (hitems : items = 0) : p.level.begun = false := by
    rw [hbegun, hitems]
    rfl
  refine keeps_bind (keeps_peek ?_)
  cases hch : pattern[p.position]? with
  | none =>
    simp only
    split
    · next hitems =>
      rw [courseAt, lexemesAt_end hch]
      exact keeps_fail (course_nil_of_empty hloose (hempty hitems))
    · next hitems => exact keeps_pure (hdone hitems fun ch h => by rw [hch] at h; cases h)
  | some ch =>
    have hlength : p.position < pattern.length := (List.getElem?_eq_some_iff.1 hch).1
    simp only
    split
    · next hbar =>
      subst hbar
      split
      · next hitems =>
        rw [courseAt, lexemesAt_bar hch]
        exact keeps_fail (course_broken (step_bar_of_empty hloose (hempty hitems) _ _))
      · next hitems =>
        exact keeps_pure (hdone hitems fun ch h => by rw [hch] at h; cases h; exact .inl rfl)
    · next hbar =>
      split
      · next hclose =>
        subst hclose
        split
        · next hitems =>
          rw [courseAt, lexemesAt_close hch]
          exact keeps_fail (course_broken (step_close_of_empty hloose (hempty hitems) _ _))
        · next hitems =>
          exact keeps_pure (hdone hitems fun ch h => by rw [hch] at h; cases h; exact .inr rfl)
      · next hclose =>
        split
        · next hsign => exact keeps_fail (courseAt_sign hloose hch hsign)
        · next hsign =>
          split
          · next hspecial =>
            have hoperand : ch ∈ ['(', '[', '.', '\\'] := by
              simp only [Lexeme.isSpecial] at hspecial
              grind
            refine keeps_bind (ih.operand p _ ch hloose hch hoperand (by omega) fun mid hmid => ?_)
            have hrest : pattern.length < mid + fuel := by omega
            refine keeps_bind (keeps_signs (p := p.withOperand mid) rfl hrest
              fun late hlate hsign => ?_)
            have hlt : p.position < late := Nat.lt_of_lt_of_le hmid hlate
            exact keeps_bind (keeps_append (p := p.withOperand late) rfl hbegun
              (settles_lexemesAt hsign) (hgo late _ hlt (Nat.succ_pos _)))
          · next hspecial =>
            exact keeps_bind (keeps_literal hch (Bool.eq_false_iff.2 hspecial) hloose hbegun
              (by omega) fun more mid hmore hmid => hgo mid more hmid hmore)

/-- A group, whose opening bracket has been read, is an operand when it has been closed. -/
theorem Faithful.group (ih : Faithful machine pattern fuel) {mid : Nat} (report : Bool)
    (hfuel : 3 * pattern.length + 2 ≤ fuel + 3 * mid)
    (hQ : ∀ stop, mid < stop → Q () stop (courseAt pattern (p.withOperand stop))) :
    Keeps machine pattern
      (do
        Descent.alternation machine pattern fuel (p.groups.length + 1)
        check pattern ((← bump pattern) == some ')') .unmatchedOpen p.position
        emitIf machine pattern report .group)
      mid (courseAt pattern ⟨{}, ⟨p.level, report, p.position⟩ :: p.groups, mid⟩) Q := by
  refine keeps_bind (ih.alternation ⟨{}, ⟨p.level, report, p.position⟩ :: p.groups, mid⟩ _ rfl hfuel
    fun stop hle hends => ?_)
  show Keeps machine pattern _ stop
    (courseAt pattern ⟨{ begun := true }, ⟨p.level, report, p.position⟩ :: p.groups, stop⟩) Q
  rw [courseAt]
  refine keeps_bind (keeps_bump (fun hend => ?_) fun ch hch => ?_)
  · rw [lexemesAt_end hend]
    exact keeps_bind (keeps_failAt rfl)
  · obtain rfl := hends ch hch
    have hstep : Progress.step ⟨{ begun := true }, ⟨p.level, report, p.position⟩ :: p.groups, stop⟩
        ⟨.closeGroup, stop, stop + 1⟩ =
          ((if report then [.single .group (stop + 1)] else []), .ok (p.withOperand (stop + 1))) :=
      rfl
    have hdone := hQ (stop + 1) (Nat.lt_succ_of_le hle)
    rw [lexemesAt_close hch, course_ok hstep]
    refine keeps_bind (keeps_check (fun _ => ?_) fun h => by cases h)
    cases report with
    | true => exact keeps_emit hdone
    | false => exact keeps_pure hdone

/-- Every kind of operand is read as its lexeme tells. -/
theorem Faithful.operand_succ (ih : Faithful machine pattern fuel) (hloose : p.level.loose = false)
    (hch : pattern[p.position]? = some ch) (hoperand : ch ∈ ['(', '[', '.', '\\'])
    (hfuel : 3 * pattern.length ≤ fuel + 1 + 3 * p.position)
    (hQ : ∀ stop, p.position < stop → Q () stop (courseAt pattern (p.withOperand stop))) :
    Keeps machine pattern (Descent.operand machine pattern (fuel + 1) p.groups.length)
      p.position (courseAt pattern p) Q := by
  refine keeps_bind (keeps_cursor (keeps_bind (keeps_bump (fun hend => ?_) fun ch' hch' => ?_)))
  · rw [hch] at hend
    cases hend
  obtain rfl : ch' = ch := Option.some.inj (hch'.symm.trans hch)
  simp only [List.mem_cons, List.not_mem_nil, or_false] at hoperand
  rcases hoperand with rfl | rfl | rfl | rfl
  -- a group
  · have hopen (report : Bool) (stop : Nat) : p.step ⟨.openGroup report, p.position, stop⟩ =
        ([], .ok ⟨{}, ⟨p.level, report, p.position⟩ :: p.groups, stop⟩) := by
      have hsettles : (Lexeme.Kind.openGroup report).Settles := trivial
      rw [step_of_settles hsettles, settle_of_settled hloose]
      rfl
    refine keeps_bind (keeps_peek ?_)
    by_cases hnext : pattern[p.position + 1]? = some '!'
    · have hlength : p.position + 1 < pattern.length := (List.getElem?_eq_some_iff.1 hnext).1
      rw [courseAt, lexemesAt_report hch hnext, course_ok (hopen true _), hnext]
      exact keeps_bind (keeps_advance hlength (ih.group true (by omega) fun stop hlt =>
        hQ stop (by omega)))
    · rw [courseAt, lexemesAt_group hch hnext, course_ok (hopen false _),
        beq_eq_false_iff_ne.2 hnext]
      exact keeps_bind (keeps_pure (ih.group false (by omega) fun stop hlt => hQ stop (by omega)))
  -- a class
  · rw [courseAt, lexemesAt_class hch]
    refine keeps_charClass (fun instr stop hlt hclass => ?_) fun fault position hclass => ?_
    · rw [hclass]
      exact ⟨_, course_ok (step_operand hloose _ _ _), hQ stop (by omega)⟩
    · rw [hclass]
      exact course_broken (step_badOperand hloose _ _)
  -- any character
  · rw [courseAt, lexemesAt_any hch, course_ok (step_operand hloose _ _ _)]
    exact keeps_emit (hQ _ (Nat.lt_succ_self _))
  -- an escape
  · refine keeps_bind (keeps_escape hch (fun c stop hlt hg => ?_) fun fault stop hg => ?_)
    · rw [courseAt, lexemesAt_escaped hg, Lexeme.textOperand, course_ok (step_operand hloose _ _ _)]
      exact keeps_emit (hQ stop hlt)
    · rw [courseAt, lexemesAt_broken hg]
      exact course_broken (step_badOperand hloose _ _)

theorem faithful (fuel : Nat) : Faithful machine pattern fuel := by
  induction fuel with
  | zero => exact faithful_zero
  | succ fuel ih =>
    exact {
      alternation := fun _ _ hlevel hfuel hQ => ih.alternation_succ hlevel hfuel hQ
      alternatives := fun _ _ hlevel hfuel hends hQ => ih.alternatives_succ hlevel hfuel hends hQ
      sequence := fun _ _ _ hloose hbegun hfuel hQ => ih.sequence_succ hloose hbegun hfuel hQ
      operand := fun _ _ _ hloose hch hoperand hfuel hQ =>
        ih.operand_succ hloose hch hoperand hfuel hQ }

/-- The parser keeps to the course of the pattern to the end of both. -/
theorem keeps_parse (machine : Machine σ) (pattern : List Char) :
    Keeps machine pattern (parse machine pattern) 0 (.ofScript (Script.ofChars pattern))
      fun _ stop rest => pattern.length ≤ stop ∧ rest = .done := by
  refine keeps_bind ((faithful _).alternation {} _ rfl (Nat.le_refl _) fun stop _ hends => ?_)
  show Keeps machine pattern _ stop (courseAt pattern ⟨{ begun := true }, [], stop⟩) _
  rw [courseAt]
  refine keeps_bind (keeps_cursor (keeps_bind (keeps_peek ?_)))
  cases hch : pattern[stop]? with
  | none =>
    rw [lexemesAt_end hch]
    exact keeps_pure ⟨List.getElem?_eq_none_iff.1 hch, rfl⟩
  | some ch =>
    obtain rfl := hends ch hch
    rw [lexemesAt_close hch]
    exact keeps_failAt rfl

/-- What is read is the course of the pattern. A refusal leaves the cursor at the position that
belongs to the call, and a pattern without an error is consumed to its end. -/
theorem exists_read_eq (machine : Machine σ) (s : σ) (pattern : String) :
    ∃ consumed ≤ pattern.toList.length,
      read machine s pattern =
        (((Course.ofScript (Script.ofChars pattern.toList)).run machine s).1, consumed,
          ((Course.ofScript (Script.ofChars pattern.toList)).run machine s).2.map
            (Break.error pattern.toList)) ∧
      (∀ b, ((Course.ofScript (Script.ofChars pattern.toList)).run machine s).2 = some b →
        b.LeavesAt consumed) ∧
      (((Course.ofScript (Script.ofChars pattern.toList)).run machine s).2 = none →
        consumed = pattern.toList.length) := by
  have hkept := keeps_parse machine pattern.toList (Nat.zero_le _) s
  unfold read
  generalize parse machine pattern.toList ⟨0, s⟩ = result at hkept
  cases hkept with
  | goesOn a stop s' rest hstop hrun hQ =>
    obtain ⟨hle, rfl⟩ := hQ
    rw [hrun, Course.run_done]
    refine ⟨stop, hstop, rfl, fun b hb => ?_, fun _ => Nat.le_antisymm hstop hle⟩
    cases hb
  | breaksOff b stop s' hstop hrun hleaves =>
    rw [hrun]
    refine ⟨stop, hstop, rfl, fun b' hb => ?_, fun hb => ?_⟩
    · cases hb
      exact hleaves
    · cases hb

/-- Reading by recursive descent comes to the same as carrying out the instructions of the pattern.
-/
theorem read_eq_runPattern (machine : Machine σ) (s : σ) (pattern : String) :
    ((read machine s pattern).1, (read machine s pattern).2.2) = machine.runPattern s pattern := by
  obtain ⟨consumed, -, hread, -⟩ := exists_read_eq machine s pattern
  rw [hread, Machine.runPattern_eq_run]

end Whole

end Descent

end Pattern

end LongestMatch
