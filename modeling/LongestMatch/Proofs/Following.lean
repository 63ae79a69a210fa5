import LongestMatch.Proofs.Lexemes

/-!
# The course of a pattern from the cursor on

When a pattern has been read up to the cursor, the course of the rest is to come (`courseAt`). A
lexeme takes its calls off the front of it. The parts of a parser that read signs and texts keep to
this course (`keeps_signs`, `keeps_literal`).
-/

namespace LongestMatch

namespace Pattern

namespace Progress

/-- An operand has been read up to a position; a sign may follow it. -/
def withOperand (p : Progress) (stop : Nat) : Progress :=
  { p with level := { p.level with loose := true }, position := stop }

/-- The latest operand has been joined to the sequence, which has been read up to a position. -/
def withSequence (p : Progress) (stop : Nat) : Progress :=
  { p with level := { p.level with begun := true, loose := false }, position := stop }

/-- A sequence that has begun and is settled goes on. -/
theorem withSequence_self {p : Progress} (hloose : p.level.loose = false)
    (hbegun : p.level.begun = true) : p.withSequence p.position = p := by
  obtain ⟨⟨alternatives, begun, loose⟩, groups, position⟩ := p
  subst hloose hbegun
  rfl

end Progress

namespace Descent

section Progress

variable {p p' : Progress} {l : Lexeme} {lexemes rest : List Lexeme} {stretches : List Stretch}
  {pattern : List Char} {ch : Char} {start : Nat} {fault : Fault} {position : Nat}

/-! ## The course from a point on -/

/-- What is to come when a pattern has been read so far. -/
def course (p : Progress) (lexemes : List Lexeme) : Course :=
  .ofScript (p.read lexemes)

/-- What is to come when everything before the cursor has been read. -/
def courseAt (pattern : List Char) (p : Progress) : Course :=
  course p (lexemesAt pattern p.position)

theorem course_ok (h : p.step l = (stretches, .ok p')) :
    course p (l :: rest) = (course p' rest).after (stretches.flatMap Stretch.calls) := by
  rw [course, Progress.read, h]
  exact Course.ofScript_prepend _ _

theorem course_broken (h : p.step l = ([], .error (fault, position))) :
    course p (l :: rest) = .broken fault position := by
  rw [course, Progress.read, h]
  rfl

theorem settle_of_settled (h : p.level.loose = false) : p.settle = ([], p) := by
  rw [Progress.settle, if_neg (by rw [h]; exact Bool.false_ne_true)]

theorem loose_settle (p : Progress) : p.settle.2.level.loose = false := by
  unfold Progress.settle
  split
  · rfl
  · next h => exact Bool.eq_false_iff.2 h

/-- Where no sign follows, the latest operand is joined before anything else. -/
theorem course_settle (p : Progress) (h : ∀ l ∈ lexemes.head?, l.kind.Settles) :
    course p lexemes =
      (course p.settle.2 lexemes).after (p.settle.1.flatMap Stretch.calls) := by
  have hsettled := settle_of_settled (loose_settle p)
  cases lexemes with
  | nil =>
    simp only [course, Progress.read, Progress.finish, hsettled]
    split
    · simp [Course.ofScript, Course.after]
    · simp [Course.ofScript, Course.after]
  | cons l rest =>
    have hl := h l rfl
    simp only [course, Progress.read, step_of_settles hl, hsettled, List.nil_append]
    obtain ⟨stretches, _ | p'⟩ := p.settle.2.proceed l
    · simp [Course.ofScript, Course.after]
    · simp [Course.ofScript, Course.after, Script.prepend]

theorem step_operand (h : p.level.loose = false) (instr : Instr) (start stop : Nat) :
    p.step ⟨.operand instr, start, stop⟩ = ([.single instr stop], .ok (p.withOperand stop)) := by
  have hsettles : (Lexeme.Kind.operand instr).Settles := trivial
  rw [step_of_settles hsettles, settle_of_settled h]
  rfl

theorem step_badOperand (h : p.level.loose = false) (start stop : Nat) :
    p.step ⟨.badOperand fault position, start, stop⟩ = ([], .error (fault, position)) := by
  have hsettles : (Lexeme.Kind.badOperand fault position).Settles := trivial
  rw [step_of_settles hsettles, settle_of_settled h]
  rfl

/-! Where a sequence is to begin, there has to be an operand. -/

theorem course_nil_of_empty (hloose : p.level.loose = false) (hbegun : p.level.begun = false) :
    course p [] = .broken .unexpectedEnd p.position := by
  rw [course, Progress.read, Progress.finish, settle_of_settled hloose]
  simp only [hbegun]
  rfl

theorem step_bar_of_empty (hloose : p.level.loose = false) (hbegun : p.level.begun = false)
    (start stop : Nat) : p.step ⟨.bar, start, stop⟩ = ([], .error (.unexpectedChar, start)) := by
  have hsettles : Lexeme.Kind.bar.Settles := trivial
  rw [step_of_settles hsettles, settle_of_settled hloose]
  simp [Progress.proceed, hbegun]

theorem step_close_of_empty (hloose : p.level.loose = false) (hbegun : p.level.begun = false)
    (start stop : Nat) : p.step ⟨.closeGroup, start, stop⟩ =
      ([], .error (if p.groups.length = 0 then .unmatchedClose else .unexpectedChar, start)) := by
  have hsettles : Lexeme.Kind.closeGroup.Settles := trivial
  rw [step_of_settles hsettles, settle_of_settled hloose]
  cases hgroups : p.groups with
  | nil => simp [Progress.proceed, Progress.close, hgroups, hbegun]
  | cons group groups => simp [Progress.proceed, Progress.close, hgroups, hbegun]

/-- Where the sequence of a further alternative ends, it is joined to those before. -/
theorem course_endSequence (hlevel : p.level = { alternatives := true, begun := true })
    (h : ∀ l ∈ lexemes.head?, l.kind = .bar ∨ l.kind = .closeGroup) :
    course p lexemes =
      (course { p with level := { begun := true } } lexemes).after [(.or, p.position)] := by
  obtain ⟨level, groups, position⟩ := p
  subst hlevel
  cases lexemes with
  | nil => simp [course, Progress.read, Progress.finish, Progress.settle, Progress.endSequence,
      Course.ofScript, Course.after, Stretch.calls_single]
  | cons l rest =>
    have hl : l.kind.Settles := by
      rcases h l rfl with hbar | hclose
      · rw [hbar]
        trivial
      · rw [hclose]
        trivial
    simp only [course, Progress.read, step_of_settles hl, settle_of_settled, List.nil_append]
    rcases h l rfl with hbar | hclose
    · simp [Progress.proceed, hbar, Progress.endSequence, Course.ofScript, Course.after,
        Script.prepend, Stretch.calls_single]
    · cases groups with
      | nil =>
        simp [Progress.proceed, hclose, Progress.close, Progress.endSequence, Course.ofScript,
          Course.after, Stretch.calls_single]
      | cons group groups =>
        simp [Progress.proceed, hclose, Progress.close, Progress.endSequence, Course.ofScript,
          Course.after, Script.prepend, Stretch.calls_single]

/-- A sign needs an operand in front of it. -/
theorem courseAt_sign (hloose : p.level.loose = false) (h : pattern[p.position]? = some ch)
    (hsign : Lexeme.isSign ch = true) :
    courseAt pattern p = .broken .unexpectedChar p.position := by
  rcases Bool.or_eq_true_iff.1 hsign with hbrace | hop
  · obtain rfl := beq_iff_eq.1 hbrace
    rw [courseAt, lexemesAt_brace h]
    rcases Lexeme.boundsAfter p.position (p.position + 1) (glyphsAt pattern (p.position + 1)) with
      fault | ⟨b, stop, glyphs⟩
    · exact course_broken (by simp [Lexeme.ofReading, Progress.step, hloose])
    · exact course_broken (by simp [Lexeme.ofReading, Progress.step, Progress.sign, hloose])
  · obtain ⟨op, hop⟩ := Option.isSome_iff_exists.1 hop
    rw [courseAt, lexemesAt_sign h hop]
    exact course_broken (by simp [Progress.step, Progress.sign, hloose])

end Progress

section Parts

variable {σ : Type} {machine : Machine σ} {pattern : List Char} {p : Progress} {ch : Char}
  {fuel : Nat} {Q : Unit → Nat → Course → Prop}

/-! ## Signs -/

/-- The signs after an operand are carried out one after another. -/
theorem keeps_signs (hloose : p.level.loose = true) (hfuel : pattern.length < p.position + fuel)
    (hQ : ∀ stop, p.position ≤ stop → pattern[stop]?.any Lexeme.isSign = false →
      Q () stop (courseAt pattern { p with position := stop })) :
    Keeps machine pattern (signs machine pattern fuel) p.position (courseAt pattern p) Q := by
  induction fuel generalizing p with
  | zero => exact fun hle => absurd hfuel (by omega)
  | succ fuel ih =>
    have hnone (hno : pattern[p.position]?.any Lexeme.isSign = false) :
        Q () p.position (courseAt pattern p) :=
      hQ p.position (Nat.le_refl _) hno
    refine keeps_bind (keeps_cursor (keeps_bind (keeps_peek ?_)))
    cases hch : pattern[p.position]? with
    | none => exact keeps_pure (hnone (by rw [hch]; rfl))
    | some ch =>
      have hlength : p.position < pattern.length := (List.getElem?_eq_some_iff.1 hch).1
      simp only
      split
      · next hbrace =>
        subst hbrace
        refine keeps_bind (keeps_advance hlength ?_)
        rw [courseAt, lexemesAt_brace hch]
        refine keeps_bind (keeps_repetition (fun b stop hle hb => ?_) fun fault position hb => ?_)
        · rw [hb]
          refine ⟨courseAt pattern { p with position := stop }, course_ok ?_, ?_⟩
          · simp [Lexeme.ofReading, Progress.step, Progress.sign, hloose]
          · have hfuel : pattern.length < stop + fuel := by omega
            have hle : p.position ≤ stop := by omega
            exact ih (p := { p with position := stop }) hloose hfuel fun late hlate =>
              hQ late (Nat.le_trans hle hlate)
        · rw [hb]
          refine course_broken ?_
          simp [Lexeme.ofReading, Progress.step, hloose]
      · next hbrace =>
        split
        · next hop =>
          refine keeps_pure (hnone ?_)
          rw [hch, Option.any_some, Lexeme.isSign, hop, beq_eq_false_iff_ne.2 hbrace]
          rfl
        · next op hop =>
          have hsign : p.step ⟨.unary op, p.position, p.position + 1⟩ =
              ([.single (.unary op) (p.position + 1)],
                .ok { p with position := p.position + 1 }) := by
            simp [Progress.step, Progress.sign, hloose]
          have hfuel : pattern.length < p.position + 1 + fuel := by omega
          rw [courseAt, lexemesAt_sign hch hop, course_ok hsign]
          exact keeps_bind (keeps_advance hlength (keeps_bind (keeps_emit
            (ih (p := { p with position := p.position + 1 }) hloose hfuel fun late hlate =>
              hQ late (Nat.le_trans (Nat.le_succ _) hlate)))))

/-! ## Texts -/

variable {items start stop : Nat} {lexemes : List Lexeme} {chars : List Char}
  {R : Nat → Nat → Course → Prop}

/-- The operand on top is joined to the sequence when no sign follows. -/
theorem keeps_append (hloose : p.level.loose = true) (hbegun : p.level.begun = decide (0 < items))
    (hsettles : ∀ l ∈ lexemes.head?, l.kind.Settles)
    (hR : R (items + 1) p.position (course (p.withSequence p.position) lexemes)) :
    Keeps machine pattern (append machine pattern items) p.position (course p lexemes) R := by
  rw [course_settle p hsettles, Progress.settle, if_pos hloose, hbegun]
  unfold append
  by_cases hitems : 0 < items
  · simp only [hitems, decide_true, if_true]
    exact keeps_bind (keeps_emit (keeps_pure hR))
  · simp only [hitems, decide_false, Bool.false_eq_true, if_false]
    exact keeps_bind (keeps_pure (keeps_pure hR))

/-- A text becomes one more operand of the sequence. -/
theorem keeps_text (hloose : p.level.loose = false) (hbegun : p.level.begun = decide (0 < items))
    (hsettles : ∀ l ∈ lexemes.head?, l.kind.Settles)
    (hR : R (items + 1) stop (course (p.withSequence stop) lexemes)) :
    Keeps machine pattern (text machine pattern items chars) stop
      (course p (⟨Lexeme.textOperand chars, start, stop⟩ :: lexemes)) R := by
  rw [Lexeme.textOperand, course_ok (step_operand hloose _ _ _)]
  exact keeps_bind (keeps_emit (keeps_append (p := p.withOperand stop) rfl hbegun hsettles hR))

/-- Of a text that signs follow, the last character is an operand, and the signs apply to it. -/
theorem keeps_last (hloose : p.level.loose = false) (hbegun : p.level.begun = decide (0 < items))
    (hfuel : pattern.length < stop + fuel)
    (hR : ∀ late, stop ≤ late → R (items + 1) late (courseAt pattern (p.withSequence late))) :
    Keeps machine pattern
      (do
        emit machine pattern (.text (String.ofList chars))
        signs machine pattern fuel
        append machine pattern items)
      stop (course p (⟨Lexeme.textOperand chars, start, stop⟩ :: lexemesAt pattern stop)) R := by
  rw [Lexeme.textOperand, course_ok (step_operand hloose _ _ _)]
  refine keeps_bind (keeps_emit (keeps_bind (keeps_signs (p := p.withOperand stop) rfl hfuel
    fun late hle hsign => ?_)))
  exact keeps_append (p := p.withOperand late) rfl hbegun (settles_lexemesAt hsign) (hR late hle)

/-- A run of characters that stand for themselves becomes one or two operands. -/
theorem keeps_literal (hch : pattern[p.position]? = some ch)
    (hspecial : Lexeme.isSpecial ch = false)
    (hloose : p.level.loose = false) (hbegun : p.level.begun = decide (0 < items))
    (hfuel : pattern.length < p.position + fuel)
    (hR : ∀ items stop, 0 < items → p.position < stop →
      R items stop (courseAt pattern (p.withSequence stop))) :
    Keeps machine pattern (literal machine pattern fuel items) p.position (courseAt pattern p)
      R := by
  have hpositive : 0 < (runAt pattern p.position).length := by
    rw [runAt_cons hch hspecial]
    exact Nat.succ_pos _
  have hbound : p.position + (runAt pattern p.position).length ≤ pattern.length :=
    add_length_runAt_le (List.getElem?_eq_some_iff.1 hch).1.le
  generalize hstop : p.position + (runAt pattern p.position).length = stop at hbound
  refine keeps_bind (keeps_bind (keeps_cursor (keeps_bind (keeps_advance (hstop ▸ hbound)
    (keeps_pure ?_)))))
  rw [← runAt, hstop, courseAt]
  refine keeps_bind (keeps_peek ?_)
  split
  · next hsign =>
    have hfuel : pattern.length < stop + fuel := by omega
    -- the sign applies to the last character, and the others are a text of their own
    by_cases hlength : 1 < (runAt pattern p.position).length
    · rw [lexemesAt_text_sign hch hspecial hstop hsign hlength, textBefore, if_pos hlength]
      refine keeps_bind (keeps_text hloose hbegun (fun l hl => ?_) ?_)
      · cases hl
        trivial
      · refine keeps_last rfl (decide_eq_true (Nat.succ_pos items)).symm hfuel fun late hle => ?_
        exact hR _ late (Nat.succ_pos _) (by omega)
    · have hone : (runAt pattern p.position).length - 1 = 0 := by omega
      rw [lexemesAt_text hch hspecial hstop fun _ => by omega, textBefore, if_neg hlength, hone,
        List.drop_zero]
      refine keeps_bind (keeps_pure (keeps_last hloose hbegun hfuel fun late hle => ?_))
      exact hR _ late (Nat.succ_pos _) (by omega)
  · next hsign =>
    rw [lexemesAt_text hch hspecial hstop fun hyes => absurd hyes hsign]
    exact keeps_text hloose hbegun (settles_lexemesAt (Bool.eq_false_iff.2 hsign))
      (hR _ _ (Nat.succ_pos items) (by omega))

end Parts

end Descent

end Pattern

end LongestMatch
