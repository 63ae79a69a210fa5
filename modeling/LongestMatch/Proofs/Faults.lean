import LongestMatch.Proofs.Descending
import LongestMatch.Proofs.Unclosed

/-!
# Where the faults of a pattern are

A rejected pattern is reported with a column and the text around it. Each fault is found somewhere
behind the character that is to blame, and reported at that character, so each part of the parser is
told to locate its faults (`Descent.Locates`): a fault that it reports is at a place in the pattern,
and the character there is one that the fault is about (`Fault.PointsAt`). A fault at the end of a
class is about its opening bracket, and the class is indeed unclosed; what the reader knows about
classes already is used for that (`locates_of_keeps`).

* `fault_located` — the column, the text around it and the character at the column, for every
  rejected pattern.
-/

namespace LongestMatch

namespace Pattern

/-- The character that a fault is about stands at the position. A pattern that ends too soon has its
fault at the end, or at the bracket of a class that is not closed; a range, bounds or too many
groups may be at fault anywhere. -/
def Fault.PointsAt (pattern : List Char) (position : Nat) : Fault → Prop
  | .unmatchedOpen => pattern[position]? = some '('
  | .escapeAtEnd => pattern[position]? = some '\\'
  | .badHexEscape => pattern[position]? = some '\\'
  | .missingBrace => pattern[position]? = some '\x7b'
  | .unmatchedClose => pattern[position]? = some ')'
  | .trailingText => pattern[position]? = some ')'
  | .unexpectedChar =>
    ∃ c ∈ ['|', ')', '?', '*', '+', '!', '~', '^', '@', '\x7b'], pattern[position]? = some c
  | .unexpectedEnd =>
    position = pattern.length ∨ pattern[position]? = some '[' ∧ Unclosed (pattern.drop position)
  | .badRange => True
  | .badRepeat => True
  | .tooManyGroups => True

namespace Machine

variable {σ : Type}

/-- The machine does not reject patterns of its own accord. -/
def NeverRejects (machine : Machine σ) : Prop :=
  ∀ s instr r, (machine s instr).2 ≠ some (.pattern r)

/-- A row of instructions is refused with the error that one of them is refused with. -/
theorem NeverRejects.run {machine : Machine σ} (h : machine.NeverRejects) (s : σ)
    (instrs : List Instr) (r : Rejection) : (machine.run s instrs).2 ≠ some (.pattern r) := by
  induction instrs generalizing s with
  | nil => exact fun heq => by cases heq
  | cons instr instrs ih =>
    have hstep := h s instr r
    rw [Machine.run]
    generalize machine s instr = answer at hstep ⊢
    obtain ⟨s', _ | error⟩ := answer
    · exact ih s'
    · exact hstep

end Machine

namespace Course

/-- A course breaks off because the machine refuses a call, or because of its fault. -/
theorem breaks_off {σ : Type} {machine : Machine σ} {c : Course} {s : σ} {b : Break}
    (h : (c.run machine s).2 = some b) :
    (∃ s' instr error position,
      (machine s' instr).2 = some error ∧ b = .refusal error position) ∨
      ∃ f ∈ c.fault, b = .rejection f.1 f.2 := by
  obtain ⟨calls, fault⟩ := c
  induction calls generalizing s with
  | nil =>
    obtain ⟨f, hf, rfl⟩ := Option.map_eq_some_iff.1 h
    exact .inr ⟨f, hf, rfl⟩
  | cons call calls ih =>
    obtain ⟨instr, position⟩ := call
    change ((Course.after [(instr, position)] ⟨calls, fault⟩).run machine s).2 = some b at h
    rw [run_after_single] at h
    rcases hcall : machine s instr with ⟨s', _ | error⟩
    · rw [hcall] at h
      exact ih h
    · rw [hcall] at h
      cases h
      exact .inl ⟨s, instr, error, position, by rw [hcall], rfl⟩

/-- What is to come of a class that is read so: one call, or its fault. -/
def ofClass : Except (Fault × Nat) (Instr × Nat × List Glyph) → Course
  | .ok (instr, stop, _) => done.after [(instr, stop)]
  | .error (fault, position) => broken fault position

end Course

namespace Descent

/-! ## Parts that locate their faults -/

section Locates

variable {σ α β : Type} {machine : Machine σ} {pattern : List Char} {p : Parser σ α}
  {q : α → Parser σ β} {start : Nat} {Q : α → Nat → Prop} {R : β → Nat → Prop} {fault : Fault}
  {position : Nat} {instr : Instr}

/-- What a part of a parser may come to: it goes on within the pattern, so that `Q` holds, or it
rejects the pattern at a position that its fault points at, or there is an error that is no
rejection. -/
inductive Told (pattern : List Char) (Q : α → Nat → Prop) :
    EStateM.Result Error (Place σ) α → Prop where
  | goesOn (a : α) (stop : Nat) (s : σ) (hstop : stop ≤ pattern.length) (hQ : Q a stop) :
      Told pattern Q (.ok a ⟨stop, s⟩)
  | located (fault : Fault) (position : Nat) (place : Place σ) (hle : position ≤ pattern.length)
      (hpoints : fault.PointsAt pattern position) :
      Told pattern Q (.error (.pattern (Rejection.locate pattern fault position)) place)
  | other (error : Error) (place : Place σ) (hother : ∀ r, error ≠ .pattern r) :
      Told pattern Q (.error error place)

/-- From `start` on, a part of a parser locates its faults, and `Q` holds where it ends. -/
def Locates (pattern : List Char) (p : Parser σ α) (start : Nat) (Q : α → Nat → Prop) : Prop :=
  start ≤ pattern.length → ∀ s, Told pattern Q (p ⟨start, s⟩)

theorem locates_bind (h : Locates pattern p start fun a stop => Locates pattern (q a) stop R) :
    Locates pattern (p >>= q) start R := by
  intro hstart s
  have htold := h hstart s
  show Told pattern R (EStateM.bind p q ⟨start, s⟩)
  unfold EStateM.bind
  generalize p ⟨start, s⟩ = result at htold ⊢
  cases htold with
  | goesOn a stop s' hstop hQ => exact hQ hstop s'
  | located fault position place hle hpoints => exact .located fault position place hle hpoints
  | other error place hother => exact .other error place hother

theorem Locates.mono {Q' : α → Nat → Prop} (h : Locates pattern p start Q)
    (hQ : ∀ a stop, Q a stop → Q' a stop) : Locates pattern p start Q' := by
  intro hstart s
  have htold := h hstart s
  generalize p ⟨start, s⟩ = result at htold ⊢
  cases htold with
  | goesOn a stop s' hstop h => exact .goesOn a stop s' hstop (hQ a stop h)
  | located fault position place hle hpoints => exact .located fault position place hle hpoints
  | other error place hother => exact .other error place hother

/-- What comes next locates its faults wherever it begins. -/
theorem Locates.andThen (h : Locates pattern p start fun _ _ => True)
    (hq : ∀ a stop, Locates pattern (q a) stop R) : Locates pattern (p >>= q) start R :=
  locates_bind (h.mono fun a stop _ => hq a stop)

theorem locates_pure {a : α} (h : Q a start) :
    Locates pattern (pure a : Parser σ α) start Q :=
  fun hstart s => .goesOn a start s hstart h

theorem locates_cursor {Q : Nat → Nat → Prop} (h : Q start start) :
    Locates pattern (cursor : Parser σ Nat) start Q :=
  fun hstart s => .goesOn start start s hstart h

theorem locates_peek {Q : Option Char → Nat → Prop} (h : Q pattern[start]? start) :
    Locates pattern (peek pattern : Parser σ (Option Char)) start Q :=
  fun hstart s => .goesOn _ start s hstart h

theorem locates_advance {Q : Unit → Nat → Prop} {count : Nat}
    (hcount : start + count ≤ pattern.length) (h : Q () (start + count)) :
    Locates pattern (advance count : Parser σ Unit) start Q :=
  fun _ s => .goesOn () (start + count) s hcount h

theorem locates_bump {Q : Option Char → Nat → Prop} (hend : pattern[start]? = none → Q none start)
    (hnext : ∀ ch, pattern[start]? = some ch → Q (some ch) (start + 1)) :
    Locates pattern (bump pattern : Parser σ (Option Char)) start Q := by
  refine locates_bind (locates_peek (locates_bind ?_))
  cases hch : pattern[start]? with
  | none => exact locates_pure (locates_pure (hend hch))
  | some ch =>
    have hlt : start < pattern.length := (List.getElem?_eq_some_iff.1 hch).1
    exact locates_advance hlt (locates_pure (hnext ch hch))

theorem locates_bump_any :
    Locates pattern (bump pattern : Parser σ (Option Char)) start fun _ _ => True :=
  locates_bump (fun _ => trivial) fun _ _ => trivial

theorem locates_failAt (hle : position ≤ pattern.length) (h : fault.PointsAt pattern position) :
    Locates pattern (failAt pattern fault position : Parser σ α) start Q :=
  fun _ s => .located fault position ⟨start, s⟩ hle h

/-- The character is that at the position. -/
theorem locates_failAt_of_char {ch : Char} (hch : pattern[position]? = some ch)
    (h : fault.PointsAt pattern position) :
    Locates pattern (failAt pattern fault position : Parser σ α) start Q :=
  locates_failAt (List.getElem?_eq_some_iff.1 hch).1.le h

theorem locates_fail (h : fault.PointsAt pattern start) :
    Locates pattern (fail pattern fault : Parser σ α) start Q :=
  locates_bind (locates_cursor fun hstart => locates_failAt hstart h hstart)

theorem locates_check {Q : Unit → Nat → Prop} {good : Bool} (hle : position ≤ pattern.length)
    (hgood : good = true → Q () start) (hbad : good = false → fault.PointsAt pattern position) :
    Locates pattern (check pattern good fault position : Parser σ Unit) start Q := by
  cases good with
  | true => exact locates_pure (hgood rfl)
  | false => exact locates_failAt hle (hbad rfl)

theorem locates_exhausted : Locates pattern (exhausted : Parser σ α) start Q :=
  fun _ s => .other _ ⟨start, s⟩ fun _ heq => by cases heq

/-- A refusal is reported at the cursor if it is one because of too many groups. -/
theorem told_refusal {error : Error} {place : Place σ} (hstart : start ≤ pattern.length)
    (herror : ∀ r, error ≠ .pattern r) :
    Told pattern Q (.error (Machine.refusal pattern start error) place) := by
  cases error with
  | tooManyGroups => exact .located .tooManyGroups start place hstart trivial
  | pattern r => exact absurd rfl (herror r)
  | _ => exact .other _ place fun _ heq => by cases heq

section Machine

variable (hmachine : machine.NeverRejects)

include hmachine

theorem locates_of_issues {act : Parser σ Unit} {instrs : List Instr} {Q : Unit → Nat → Prop}
    (hact : Issues machine pattern act instrs) (h : Q () start) : Locates pattern act start Q := by
  intro hstart s
  have hrun := hmachine.run s instrs
  rw [hact]
  generalize machine.run s instrs = answer at hrun ⊢
  obtain ⟨s', _ | error⟩ := answer
  · exact .goesOn () start s' hstart h
  · exact told_refusal hstart fun r heq => hrun r (congrArg some heq)

/-- What keeps to a course locates its faults if the course does. -/
theorem locates_of_keeps {c : Course} {Q' : α → Nat → Course → Prop}
    (h : Keeps machine pattern p start c Q')
    (hfault : ∀ f ∈ c.fault, f.2 ≤ pattern.length ∧ f.1.PointsAt pattern f.2)
    (hQ : ∀ a stop rest, Q' a stop rest → Q a stop) : Locates pattern p start Q := by
  intro hstart s
  have hkept := h hstart s
  generalize p ⟨start, s⟩ = result at hkept ⊢
  cases hkept with
  | goesOn a stop s' rest hstop _ hQ' => exact .goesOn a stop s' hstop (hQ a stop rest hQ')
  | breaksOff b stop s' hstop hrun hleaves =>
    have hbreak : (c.run machine s).2 = some b := congrArg Prod.snd hrun
    rcases Course.breaks_off hbreak with ⟨s₀, instr, error, position, herror, rfl⟩ | ⟨f, hf, rfl⟩
    · obtain rfl : stop = position := hleaves
      refine told_refusal hstop fun r heq => hmachine s₀ instr r ?_
      rw [herror, heq]
    · obtain ⟨hle, hpoints⟩ := hfault f hf
      exact .located f.1 f.2 _ hle hpoints

theorem locates_emit {Q : Unit → Nat → Prop} (h : Q () start) :
    Locates pattern (emit machine pattern instr) start Q :=
  locates_of_issues hmachine issues_emit h

theorem locates_emitIf {Q : Unit → Nat → Prop} (reason : Bool) (h : Q () start) :
    Locates pattern (emitIf machine pattern reason instr) start Q := by
  cases reason with
  | true => exact locates_emit hmachine h
  | false => exact locates_pure h

end Machine

end Locates

/-! ## Escapes and classes -/

section Steps

variable {σ : Type} {machine : Machine σ} {pattern : List Char} {start opened fuel : Nat}

theorem locates_hexDigits (hslash : pattern[opened]? = some '\\') (count code : Nat) :
    Locates pattern (hexDigits pattern opened count code : Parser σ Nat) start fun _ _ => True := by
  induction count generalizing start code with
  | zero => exact locates_pure trivial
  | succ count ih =>
    refine locates_bind (locates_bump (fun _ => locates_failAt_of_char hslash hslash)
      fun ch _ => ?_)
    rw [Option.bind_some]
    cases Glyph.hexValue? ch with
    | none => exact locates_failAt_of_char hslash hslash
    | some digit => exact ih (code * 16 + digit)

theorem locates_hex (hslash : pattern[opened]? = some '\\') (count : Nat) :
    Locates pattern (hex pattern opened count : Parser σ Char) start fun _ _ => True := by
  refine (locates_hexDigits hslash count 0).andThen fun code stop => ?_
  cases scalar? code with
  | none => exact locates_failAt_of_char hslash hslash
  | some c => exact locates_pure trivial

/-- A malformed escape is reported at its backslash. -/
theorem locates_escape (hslash : pattern[opened]? = some '\\') :
    Locates pattern (escape pattern opened : Parser σ Char) start fun _ _ => True := by
  refine locates_bind (locates_bump (fun _ => locates_failAt_of_char hslash hslash) fun ch _ => ?_)
  split
  · exact locates_failAt_of_char hslash hslash
  · exact locates_hex hslash 2
  · exact locates_hex hslash 4
  · exact locates_pure trivial

/-- A class that is not read is reported as what is wrong with it tells. -/
theorem locates_charClass (hmachine : machine.NeverRejects)
    (hopened : pattern[opened]? = some '[') :
    Locates pattern (charClass machine pattern opened) (opened + 1) fun _ _ => True := by
  have hkeeps : Keeps machine pattern (charClass machine pattern opened) (opened + 1)
      (Course.ofClass (Lexeme.classAfter opened (glyphsAt pattern (opened + 1))))
      fun _ _ _ => True := by
    refine keeps_charClass (fun instr stop _ hread => ?_) fun fault position hread => ?_
    · exact ⟨.done, by rw [hread]; rfl, trivial⟩
    · rw [hread]
      rfl
  refine locates_of_keeps hmachine hkeeps (fun f hf => ?_) fun _ _ _ _ => trivial
  rcases hread : Lexeme.classAfter opened (glyphsAt pattern (opened + 1)) with
    ⟨fault, position⟩ | ⟨instr, stop, rest⟩
  · rw [hread] at hf
    cases hf
    rcases Lexeme.unclosed_of_classAfter hopened hread with
      ⟨rfl, rfl, hunclosed⟩ | ⟨rfl | rfl, hslash⟩ | ⟨rfl, hlt⟩
    · exact ⟨(List.getElem?_eq_some_iff.1 hopened).1.le, .inr ⟨hopened, hunclosed⟩⟩
    · exact ⟨(List.getElem?_eq_some_iff.1 hslash).1.le, hslash⟩
    · exact ⟨(List.getElem?_eq_some_iff.1 hslash).1.le, hslash⟩
    · exact ⟨hlt.le, trivial⟩
  · rw [hread] at hf
    cases hf

/-! ## Repetitions and signs -/

theorem locates_digits (value : Nat) :
    Locates pattern (digits pattern fuel value : Parser σ (Option Nat)) start fun _ _ => True := by
  induction fuel generalizing start value with
  | zero => exact locates_exhausted
  | succ fuel ih =>
    refine locates_bind (locates_peek ?_)
    cases hdigit : pattern[start]?.bind digit? with
    | none => exact locates_pure trivial
    | some digit =>
      obtain ⟨ch, hch, -⟩ := Option.bind_eq_some_iff.1 hdigit
      have hlt : start < pattern.length := (List.getElem?_eq_some_iff.1 hch).1
      simp only
      split
      · exact locates_pure trivial
      · exact locates_bind (locates_advance hlt (ih _))

theorem locates_number :
    Locates pattern (number pattern : Parser σ Nat) start fun _ _ => True := by
  refine locates_bind (locates_cursor ((locates_digits 0).andThen fun value stop => ?_))
  cases value with
  | none => exact locates_fail trivial
  | some value =>
    refine locates_bind (locates_cursor fun hstop => ?_)
    exact locates_bind (locates_check hstop (fun _ => locates_pure trivial) fun _ => trivial) hstop

theorem locates_upperBound (min : Nat) :
    Locates pattern (upperBound pattern min : Parser σ (Option Nat)) start fun _ _ => True := by
  refine locates_bind (locates_peek ?_)
  split
  · next hcomma =>
    have hlt : start < pattern.length := (List.getElem?_eq_some_iff.1 hcomma).1
    refine locates_bind (locates_advance hlt (locates_bind (locates_peek ?_)))
    split
    · exact locates_number.andThen fun max stop => locates_pure trivial
    · exact locates_pure trivial
  · exact locates_pure trivial

/-- A brace that is not closed is reported at the opening one. -/
theorem locates_bounds (hbrace : pattern[opened]? = some '\x7b') :
    Locates pattern (bounds pattern opened : Parser σ (Nat × Option Nat)) start
      fun _ _ => True := by
  have hle : opened ≤ pattern.length := (List.getElem?_eq_some_iff.1 hbrace).1.le
  refine locates_number.andThen fun min mid => (locates_upperBound min).andThen fun max late => ?_
  refine locates_bump_any.andThen fun next stop => ?_
  refine locates_bind (locates_check hle (fun _ => ?_) fun _ => hbrace)
  exact locates_bind (locates_check hle (fun _ => locates_pure trivial) fun _ => trivial)

theorem locates_repetition (hmachine : machine.NeverRejects)
    (hbrace : pattern[opened]? = some '\x7b') :
    Locates pattern (repetition machine pattern opened) start fun _ _ => True := by
  refine (locates_bounds hbrace).andThen fun b stop => ?_
  obtain ⟨min, _ | max⟩ := b
  · exact locates_of_issues hmachine (issues_unbounded min) trivial
  · exact locates_of_issues hmachine (issues_bounded min max) trivial

theorem locates_signs (hmachine : machine.NeverRejects) :
    Locates pattern (signs machine pattern fuel) start fun _ _ => True := by
  induction fuel generalizing start with
  | zero => exact locates_exhausted
  | succ fuel ih =>
    refine locates_bind (locates_cursor (locates_bind (locates_peek ?_)))
    cases hch : pattern[start]? with
    | none => exact locates_pure trivial
    | some ch =>
      have hlt : start < pattern.length := (List.getElem?_eq_some_iff.1 hch).1
      simp only
      split
      · next hbrace =>
        subst hbrace
        refine locates_bind (locates_advance hlt ?_)
        exact (locates_repetition hmachine hch).andThen fun _ stop => ih
      · split
        · exact locates_pure trivial
        · exact locates_bind (locates_advance hlt (locates_bind (locates_emit hmachine ih)))

/-! ## Texts -/

theorem locates_append (hmachine : machine.NeverRejects) (items : Nat) :
    Locates pattern (append machine pattern items) start fun _ _ => True :=
  locates_bind (locates_emitIf hmachine _ (locates_pure trivial))

theorem locates_text (hmachine : machine.NeverRejects) (items : Nat) (chars : List Char) :
    Locates pattern (text machine pattern items chars) start fun _ _ => True :=
  locates_bind (locates_emit hmachine (locates_append hmachine items))

theorem locates_textBefore (hmachine : machine.NeverRejects) (items : Nat) (run : List Char) :
    Locates pattern (textBefore machine pattern items run) start fun _ _ => True := by
  unfold textBefore
  split
  · exact locates_text hmachine items _
  · exact locates_pure trivial

theorem locates_literalRun :
    Locates pattern (literalRun pattern : Parser σ (List Char)) start fun _ _ => True := by
  refine locates_bind (locates_cursor fun hstart => ?_)
  have hle : start + (runAt pattern start).length ≤ pattern.length := add_length_runAt_le hstart
  exact locates_bind (locates_advance hle (locates_pure trivial)) hstart

theorem locates_literal (hmachine : machine.NeverRejects) (items : Nat) :
    Locates pattern (literal machine pattern fuel items) start fun _ _ => True := by
  refine locates_literalRun.andThen fun run mid => locates_bind (locates_peek ?_)
  split
  · refine (locates_textBefore hmachine items run).andThen fun more late => ?_
    refine locates_bind (locates_emit hmachine ?_)
    exact (locates_signs hmachine).andThen fun _ stop => locates_append hmachine more
  · exact locates_text hmachine items run

end Steps

/-! ## Sequences and alternatives -/

/-- With so much fuel, everything up to the end of the pattern locates its faults. A sequence ends
at a bar or a closing bracket, and an alternation at the bracket only. -/
structure Locating {σ : Type} (machine : Machine σ) (pattern : List Char) (fuel : Nat) :
    Prop where
  alternation : ∀ start depth, Locates pattern (alternation machine pattern fuel depth) start
    fun _ stop => EndsAlternation pattern stop
  alternatives : ∀ start depth, EndsSequence pattern start →
    Locates pattern (alternatives machine pattern fuel depth) start
      fun _ stop => EndsAlternation pattern stop
  sequence : ∀ start depth items,
    Locates pattern (sequence machine pattern fuel depth items) start
      fun _ stop => EndsSequence pattern stop
  operand : ∀ start depth ch, pattern[start]? = some ch → ch ∈ ['(', '[', '.', '\\'] →
    Locates pattern (operand machine pattern fuel depth) start fun _ _ => True

section Whole

variable {σ : Type} {machine : Machine σ} {pattern : List Char} {start fuel depth items : Nat}
  {ch : Char}

theorem mem_of_isSign (h : Lexeme.isSign ch = true) :
    ch ∈ ['?', '*', '+', '!', '~', '^', '@', '\x7b'] := by
  rcases isSign_iff.1 h with rfl | ⟨op, rfl⟩
  · decide
  · cases op <;> decide

theorem locating_zero : Locating machine pattern 0 where
  alternation _ _ := locates_exhausted
  alternatives _ _ _ := locates_exhausted
  sequence _ _ _ := locates_exhausted
  operand _ _ _ _ _ := locates_exhausted

theorem Locating.alternation_succ (ih : Locating machine pattern fuel) :
    Locates pattern (Descent.alternation machine pattern (fuel + 1) depth) start
      fun _ stop => EndsAlternation pattern stop :=
  locates_bind ((ih.sequence start depth 0).mono fun _ mid hends => ih.alternatives mid depth hends)

/-- Where there is no further bar, the alternation ends at a closing bracket. -/
theorem Locating.alternatives_succ (hmachine : machine.NeverRejects)
    (ih : Locating machine pattern fuel) (hends : EndsSequence pattern start) :
    Locates pattern (Descent.alternatives machine pattern (fuel + 1) depth) start
      fun _ stop => EndsAlternation pattern stop := by
  refine locates_bind (locates_peek ?_)
  split
  · next hbar =>
    have hlt : start < pattern.length := (List.getElem?_eq_some_iff.1 hbar).1
    refine locates_bind (locates_advance hlt (locates_bind ?_))
    refine (ih.sequence (start + 1) depth 0).mono fun _ mid hends => ?_
    exact locates_bind (locates_emit hmachine (ih.alternatives mid depth hends))
  · next hbar =>
    refine locates_pure fun ch hch => ?_
    exact (hends ch hch).resolve_left fun heq => hbar (heq ▸ hch)

/-- A sequence without an operand is at fault for what stands in place of one. -/
theorem Locating.sequence_succ (hmachine : machine.NeverRejects)
    (ih : Locating machine pattern fuel) :
    Locates pattern (Descent.sequence machine pattern (fuel + 1) depth items) start
      fun _ stop => EndsSequence pattern stop := by
  refine locates_bind (locates_peek ?_)
  cases hch : pattern[start]? with
  | none =>
    simp only
    split
    · refine locates_bind (locates_cursor fun hstart => ?_)
      have hend : start = pattern.length :=
        Nat.le_antisymm hstart (List.getElem?_eq_none_iff.1 hch)
      exact locates_failAt hstart (.inl hend) hstart
    · exact locates_pure fun ch h => by rw [hch] at h; cases h
  | some ch =>
    -- the sequence is over
    have hends (h : ch = '|' ∨ ch = ')') : EndsSequence pattern start := by
      intro ch' h'
      rw [hch] at h'
      cases h'
      exact h
    -- a character that does not belong here
    have hunexpected (h : ch ∈ ['|', ')', '?', '*', '+', '!', '~', '^', '@', '\x7b']) :
        Fault.unexpectedChar.PointsAt pattern start :=
      ⟨ch, h, hch⟩
    simp only
    split
    · next hbar =>
      subst hbar
      split
      · exact locates_fail (hunexpected (by simp))
      · exact locates_pure (hends (.inl rfl))
    · next hbar =>
      split
      · next hclose =>
        subst hclose
        split
        · refine locates_fail ?_
          split
          · exact hch
          · exact hunexpected (by simp)
        · exact locates_pure (hends (.inr rfl))
      · next hclose =>
        split
        · next hsign =>
          exact locates_fail (hunexpected (List.mem_append_right ['|', ')'] (mem_of_isSign hsign)))
        · next hsign =>
          split
          · next hspecial =>
            have hoperand : ch ∈ ['(', '[', '.', '\\'] := by
              simp only [Lexeme.isSpecial] at hspecial
              grind
            refine (ih.operand start depth ch hch hoperand).andThen fun _ mid => ?_
            refine (locates_signs hmachine).andThen fun _ late => ?_
            exact (locates_append hmachine items).andThen fun more stop =>
              ih.sequence stop depth more
          · exact (locates_literal hmachine items).andThen fun more stop =>
              ih.sequence stop depth more

/-- A group that is not closed is reported at its opening bracket. -/
theorem Locating.operand_succ (hmachine : machine.NeverRejects) (ih : Locating machine pattern fuel)
    (hch : pattern[start]? = some ch) (hoperand : ch ∈ ['(', '[', '.', '\\']) :
    Locates pattern (Descent.operand machine pattern (fuel + 1) depth) start fun _ _ => True := by
  refine locates_bind (locates_cursor (locates_bind (locates_bump (fun hend => ?_)
    fun ch' hch' => ?_)))
  · rw [hch] at hend
    cases hend
  obtain rfl : ch' = ch := Option.some.inj (hch'.symm.trans hch)
  have hle : start ≤ pattern.length := (List.getElem?_eq_some_iff.1 hch).1.le
  simp only [List.mem_cons, List.not_mem_nil, or_false] at hoperand
  rcases hoperand with rfl | rfl | rfl | rfl
  · have hclose (report : Bool) (mid : Nat) : Locates pattern
        (do
          Descent.alternation machine pattern fuel (depth + 1)
          check pattern ((← bump pattern) == some ')') .unmatchedOpen start
          emitIf machine pattern report .group)
        mid fun _ _ => True := by
      refine locates_bind ((ih.alternation mid (depth + 1)).mono fun _ late _ => ?_)
      refine locates_bump_any.andThen fun next stop => ?_
      exact locates_bind (locates_check hle (fun _ => locates_emitIf hmachine report trivial)
        fun _ => hch)
    refine locates_bind (locates_peek ?_)
    by_cases hnext : pattern[start + 1]? = some '!'
    · have hlt : start + 1 < pattern.length := (List.getElem?_eq_some_iff.1 hnext).1
      rw [hnext]
      exact locates_bind (locates_advance hlt (hclose true _))
    · rw [beq_eq_false_iff_ne.2 hnext]
      exact locates_bind (locates_pure (hclose false _))
  · exact locates_charClass hmachine hch
  · exact locates_emit hmachine trivial
  · exact (locates_escape hch).andThen fun c stop => locates_emit hmachine trivial

theorem locating (hmachine : machine.NeverRejects) (fuel : Nat) :
    Locating machine pattern fuel := by
  induction fuel with
  | zero => exact locating_zero
  | succ fuel ih =>
    exact {
      alternation := fun _ _ => ih.alternation_succ
      alternatives := fun _ _ hends => ih.alternatives_succ hmachine hends
      sequence := fun _ _ _ => ih.sequence_succ hmachine
      operand := fun _ _ _ hch hoperand => ih.operand_succ hmachine hch hoperand }

/-- What is left of the pattern behind the alternation begins with a closing bracket. -/
theorem locates_parse (hmachine : machine.NeverRejects) :
    Locates pattern (parse machine pattern) 0 fun _ _ => True := by
  refine locates_bind (((locating hmachine _).alternation 0 0).mono fun _ stop hends => ?_)
  refine locates_bind (locates_cursor fun hstop => locates_bind (locates_peek ?_) hstop)
  refine locates_check hstop (fun _ => trivial) fun hnone => ?_
  obtain ⟨ch, hch⟩ := Option.isSome_iff_exists.1 (Option.isNone_eq_false_iff.1 hnone)
  exact hch.trans (congrArg some (hends ch hch))

end Whole

end Descent

/-! ## Rejected patterns -/

/-- What an operator gives is pushed, or there were too many groups. -/
theorem Builder.pushResult_ne_rejection (b : Builder) (rest : List Nfa)
    (result : Except GroupOverflow Nfa) (r : Rejection) :
    (b.pushResult rest result).2 ≠ some (.pattern r) := by
  rcases result with ⟨⟨⟩⟩ | nfa
  · simp [pushResult]
  · simp [pushResult]

/-- Building an automaton never rejects the pattern: that is up to the parser. -/
theorem Builder.neverRejects_exec : Machine.NeverRejects Builder.exec := by
  have hunary (b : Builder) (op : Nfa → Except GroupOverflow Nfa) (r : Rejection) :
      (b.unary op).2 ≠ some (.pattern r) := by
    unfold unary
    split
    · simp [underflow]
    · exact b.pushResult_ne_rejection _ _ r
  have hbinary (b : Builder) (op : Nfa → Nfa → Except GroupOverflow Nfa) (r : Rejection) :
      (b.binary op).2 ≠ some (.pattern r) := by
    unfold binary
    split
    · exact b.pushResult_ne_rejection _ _ r
    · simp [underflow]
  intro b instr r
  cases instr with
  | or => exact hbinary b _ r
  | seq => exact hbinary b _ r
  | unary op => exact hunary b _ r
  | group => exact hunary b _ r
  | swap =>
    simp only [exec, swap]
    split
    · simp
    · simp [underflow]
  | dup =>
    simp only [exec, dup]
    split
    · simp [push]
    · simp [underflow]
  | set | any | text => simp [exec, push]

/-- The text around a fault, by columns. -/
theorem Rejection.context_locate (pattern : List Char) (fault : Fault) {position : Nat}
    (hle : position ≤ pattern.length) :
    (locate pattern fault position).context = String.ofList
      (pattern.extract (position + 1 - 11) (min pattern.length (position + 1 + 9))) := by
  rw [locate, List.drop_take, List.extract_eq_take_drop]
  refine congrArg String.ofList (List.take_eq_take_iff.2 ?_)
  rw [List.length_drop, contextRadius]
  omega

section Rejected

variable {σ : Type} {machine : Machine σ}

/-- A pattern is rejected at one of its columns, or right behind its end. The report shows the ten
characters before the column and the ten from it on, as far as there are so many, and the character
at the column is one that the fault is about. -/
theorem fault_located (hmachine : machine.NeverRejects) (s : σ) (pattern : String) (r : Rejection)
    (h : (Descent.read machine s pattern).2.2 = some (.pattern r)) :
    1 ≤ r.column ∧ r.column ≤ pattern.toList.length + 1 ∧
      r.column - 11 ≤ min pattern.toList.length (r.column + 9) ∧
      r.context = String.ofList
        (pattern.toList.extract (r.column - 11) (min pattern.toList.length (r.column + 9))) ∧
      r.fault.PointsAt pattern.toList (r.column - 1) := by
  have htold := Descent.locates_parse hmachine (Nat.zero_le pattern.toList.length) s
  unfold Descent.read at h
  generalize Descent.parse machine pattern.toList ⟨0, s⟩ = result at htold h
  cases htold with
  | goesOn => cases h
  | other error place hother => exact absurd (Option.some.inj h) (hother r)
  | located fault position place hle hpoints =>
    cases h
    refine ⟨Nat.succ_pos position, Nat.succ_le_succ hle, ?_, ?_, hpoints⟩
    · show position + 1 - 11 ≤ min pattern.toList.length (position + 1 + 9)
      omega
    · exact Rejection.context_locate pattern.toList fault hle

/-- The class in `ab[c` is not closed, and its bracket stands at column 3. -/
theorem fault_located_openClass :
    Machine.NeverRejects Builder.exec ∧
      (Descent.read Builder.exec {} "ab[c").2.2 = some (.pattern ⟨.unexpectedEnd, 3, "ab[c"⟩) ∧
      Fault.unexpectedEnd.PointsAt "ab[c".toList 2 := by
  have hread : (Descent.read Builder.exec {} "ab[c").2.2 =
      some (.pattern ⟨.unexpectedEnd, 3, "ab[c"⟩) := by decide +kernel
  have hlocated := fault_located Builder.neverRejects_exec {} "ab[c" _ hread
  exact ⟨Builder.neverRejects_exec, hread, hlocated.2.2.2.2⟩

end Rejected

end Pattern

end LongestMatch
