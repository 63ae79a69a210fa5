import LongestMatch.Proofs.Cursor

/-!
# Lexemes at the cursor

The character at the cursor decides which lexeme begins there (`lexemesAt_any` and the like). A run
of characters that stand for themselves is one text, or two if a sign follows (`lexemesAt_text`,
`lexemesAt_text_sign`).
-/

namespace LongestMatch

namespace Pattern

namespace Descent

section Lexemes

variable {σ : Type} {machine : Machine σ} {pattern text : List Char} {start stop n : Nat}
  {ch d : Char} {g : Glyph} {rest glyphs : List Glyph} {c : Course}

/-- The characters from a position on that stand for themselves, up to the next one that does not.
-/
def runAt (pattern : List Char) (start : Nat) : List Char :=
  (pattern.drop start).takeWhile fun c => !Lexeme.isSpecial c

theorem runAt_cons (h : pattern[start]? = some ch) (hspecial : Lexeme.isSpecial ch = false) :
    runAt pattern start = ch :: runAt pattern (start + 1) := by
  rw [runAt, drop_eq_cons h, List.takeWhile_cons_of_pos (by simp [hspecial]), runAt]

theorem runAt_special (h : pattern[start]? = some ch) (hspecial : Lexeme.isSpecial ch = true) :
    runAt pattern start = [] := by
  rw [runAt, drop_eq_cons h, List.takeWhile_cons_of_neg (by simp [hspecial])]

theorem runAt_end (h : pattern[start]? = none) : runAt pattern start = [] := by
  rw [runAt, List.drop_eq_nil_of_le (List.getElem?_eq_none_iff.1 h), List.takeWhile_nil]

theorem exists_of_runAt_ne_nil (h : runAt pattern start ≠ []) :
    ∃ ch, pattern[start]? = some ch ∧ Lexeme.isSpecial ch = false := by
  cases hch : pattern[start]? with
  | none => exact absurd (runAt_end hch) h
  | some ch =>
    cases hspecial : Lexeme.isSpecial ch with
    | true => exact absurd (runAt_special hch hspecial) h
    | false => exact ⟨ch, rfl, hspecial⟩

theorem add_length_runAt_le (h : start ≤ pattern.length) :
    start + (runAt pattern start).length ≤ pattern.length := by
  have hle := (List.takeWhile_sublist (l := pattern.drop start)
    fun c => !Lexeme.isSpecial c).length_le
  rw [List.length_drop] at hle
  unfold runAt
  omega

/-- What is left of a run behind its first characters. -/
theorem runAt_add (h : n ≤ (runAt pattern start).length) :
    runAt pattern (start + n) = (runAt pattern start).drop n := by
  induction n generalizing start with
  | zero => rfl
  | succ n ih =>
    obtain ⟨ch, hch, hspecial⟩ :=
      exists_of_runAt_ne_nil (List.length_pos_iff.1 (Nat.zero_lt_of_lt h))
    rw [runAt_cons hch hspecial] at h ⊢
    rw [List.drop_succ_cons, ← ih (Nat.le_of_succ_le_succ h), Nat.add_assoc, Nat.add_comm 1 n]

theorem literal?_glyphsAt (h : pattern[start]? = some ch)
    (hg : glyphsAt pattern start = g :: rest) :
    Lexeme.literal? g = if Lexeme.isSpecial ch then none else some ch := by
  by_cases hslash : ch = '\\'
  · subst hslash
    obtain ⟨kind, stop, rest', hg', hkind⟩ := glyphsAt_slash h
    obtain ⟨rfl, -⟩ := List.cons.inj (hg.symm.trans hg')
    cases kind with
    | plain d => exact absurd rfl (hkind d)
    | _ => rfl
  · rw [glyphsAt_plain h hslash] at hg
    cases hg
    rfl

theorem signFollows_glyphsAt (pattern : List Char) (start : Nat) :
    Lexeme.signFollows (glyphsAt pattern start) = pattern[start]?.any Lexeme.isSign := by
  cases hch : pattern[start]? with
  | none =>
    rw [glyphsAt_end hch]
    rfl
  | some ch =>
    by_cases hslash : ch = '\\'
    · subst hslash
      obtain ⟨kind, stop, rest, hg, hkind⟩ := glyphsAt_slash hch
      rw [hg]
      cases kind with
      | plain d => exact absurd rfl (hkind d)
      | _ => rfl
    · rw [glyphsAt_plain hch hslash]
      rfl

theorem literals_cons (h : pattern[start]? = some ch) (hspecial : Lexeme.isSpecial ch = false) :
    Lexeme.literals (glyphsAt pattern start) =
      (⟨.plain ch, start, start + 1⟩, ch) :: Lexeme.literals (glyphsAt pattern (start + 1)) := by
  have hslash : ch ≠ '\\' := by
    rintro rfl
    cases hspecial
  have hg := glyphsAt_plain h hslash
  rw [hg, Lexeme.literals, literal?_glyphsAt h hg, hspecial]
  rfl

theorem literals_nil (h : runAt pattern start = []) :
    Lexeme.literals (glyphsAt pattern start) = [] := by
  cases hch : pattern[start]? with
  | none =>
    rw [glyphsAt_end hch]
    rfl
  | some ch =>
    obtain ⟨g, rest, hg, -, -⟩ := exists_glyphsAt hch
    cases hspecial : Lexeme.isSpecial ch with
    | true =>
      rw [hg, Lexeme.literals, literal?_glyphsAt hch hg, hspecial]
      rfl
    | false =>
      rw [runAt_cons hch hspecial] at h
      cases h

/-- The glyphs at the front that stand for themselves are the characters that do. -/
theorem literals_glyphsAt (pattern : List Char) (start : Nat) :
    (Lexeme.literals (glyphsAt pattern start)).map Prod.snd = runAt pattern start ∧
      (∀ n ≤ (runAt pattern start).length,
        (glyphsAt pattern start).drop n = glyphsAt pattern (start + n)) ∧
      ∀ g : Glyph, g.stop = start →
        (((Lexeme.literals (glyphsAt pattern start)).map Prod.fst).getLastD g).stop =
          start + (runAt pattern start).length := by
  generalize hrun : runAt pattern start = run
  induction run generalizing start with
  | nil =>
    rw [literals_nil hrun]
    refine ⟨rfl, fun n hn => ?_, fun g hg => hg⟩
    obtain rfl : n = 0 := Nat.le_zero.1 hn
    rfl
  | cons first run ih =>
    obtain ⟨ch, hch, hspecial⟩ := exists_of_runAt_ne_nil (hrun ▸ List.cons_ne_nil first run)
    rw [runAt_cons hch hspecial] at hrun
    obtain ⟨rfl, htail⟩ := List.cons.inj hrun
    obtain ⟨hsnd, hdrop, hlast⟩ := ih (start + 1) htail
    rw [literals_cons hch hspecial]
    refine ⟨congrArg (ch :: ·) hsnd, fun n hn => ?_, fun g _ => ?_⟩
    · cases n with
      | zero => rfl
      | succ n =>
        have hslash : ch ≠ '\\' := by
          rintro rfl
          cases hspecial
        rw [glyphsAt_plain hch hslash, List.drop_succ_cons, hdrop n (Nat.le_of_succ_le_succ hn),
          Nat.add_assoc, Nat.add_comm 1 n]
    · rw [List.length_cons, List.map_cons, List.getLastD_cons]
      exact (hlast _ rfl).trans (by omega)

/-! ## Lexemes -/

theorem lexemesAt_end (h : pattern[start]? = none) : lexemesAt pattern start = [] := by
  rw [lexemesAt, glyphsAt_end h, Lexeme.ofGlyphs]

theorem lexemesAt_cons (h : glyphsAt pattern start = g :: rest) :
    lexemesAt pattern start = (Lexeme.next g rest).1 :: Lexeme.ofGlyphs (Lexeme.next g rest).2 := by
  rw [lexemesAt, h, Lexeme.ofGlyphs]

theorem lexemesAt_plain (h : pattern[start]? = some ch) (hch : ch ≠ '\\') :
    lexemesAt pattern start =
      (Lexeme.ofPlain ⟨.plain ch, start, start + 1⟩ ch (glyphsAt pattern (start + 1))).1 ::
        Lexeme.ofGlyphs
          (Lexeme.ofPlain ⟨.plain ch, start, start + 1⟩ ch (glyphsAt pattern (start + 1))).2 :=
  lexemesAt_cons (glyphsAt_plain h hch)

/-- A run of characters that stand for themselves is one text, but it leaves the last one of several
if a sign follows. -/
theorem textAfter_glyphsAt (h : pattern[start]? = some ch) (hspecial : Lexeme.isSpecial ch = false)
    (hstop : start + (runAt pattern start).length = stop) :
    Lexeme.textAfter ⟨.plain ch, start, start + 1⟩ ch (glyphsAt pattern (start + 1)) =
      if pattern[stop]?.any Lexeme.isSign && decide (1 < (runAt pattern start).length) then
        (⟨Lexeme.textOperand (runAt pattern start).dropLast, start, stop⟩,
          glyphsAt pattern (stop - 1))
      else (⟨Lexeme.textOperand (runAt pattern start), start, stop⟩, glyphsAt pattern stop) := by
  obtain ⟨hsnd, hdrop, hlast⟩ := literals_glyphsAt pattern (start + 1)
  have hlast := hlast ⟨.plain ch, start, start + 1⟩ rfl
  rw [runAt_cons h hspecial] at hstop ⊢
  unfold Lexeme.textAfter
  simp only
  generalize Lexeme.literals (glyphsAt pattern (start + 1)) = more at hsnd hlast ⊢
  rw [← hsnd] at hdrop hlast hstop ⊢
  rw [List.length_cons, List.length_map] at hstop
  rw [List.length_map] at hdrop hlast
  have hend : start + 1 + more.length = stop := by omega
  rw [hlast, hdrop _ (Nat.le_refl _), hdrop _ (Nat.sub_le more.length 1), hend,
    signFollows_glyphsAt]
  cases more with
  | nil => simp
  | cons first more =>
    have hbefore : start + 1 + ((first :: more).length - 1) = stop - 1 := by
      rw [List.length_cons] at hend ⊢
      omega
    rw [hbefore, List.map_dropLast]
    simp

theorem lexemesAt_textAfter (h : pattern[start]? = some ch)
    (hspecial : Lexeme.isSpecial ch = false) : lexemesAt pattern start =
      (Lexeme.textAfter ⟨.plain ch, start, start + 1⟩ ch (glyphsAt pattern (start + 1))).1 ::
        Lexeme.ofGlyphs
          (Lexeme.textAfter ⟨.plain ch, start, start + 1⟩ ch (glyphsAt pattern (start + 1))).2 := by
  have hslash : ch ≠ '\\' := by
    rintro rfl
    cases hspecial
  have hmem : ch ∉ special := by
    rw [← isSpecial_iff, hspecial]
    exact Bool.false_ne_true
  rw [lexemesAt_plain h hslash, Lexeme.ofPlain_of_notMem _ hmem]

/-- A run of characters that stand for themselves is a text, unless a sign follows more than one
character. -/
theorem lexemesAt_text (h : pattern[start]? = some ch) (hspecial : Lexeme.isSpecial ch = false)
    (hstop : start + (runAt pattern start).length = stop)
    (hsign : pattern[stop]?.any Lexeme.isSign = true → (runAt pattern start).length ≤ 1) :
    lexemesAt pattern start =
      ⟨Lexeme.textOperand (runAt pattern start), start, stop⟩ :: lexemesAt pattern stop := by
  have hwhole :
      ¬(pattern[stop]?.any Lexeme.isSign && decide (1 < (runAt pattern start).length)) = true := by
    rw [Bool.and_eq_true, decide_eq_true_eq]
    exact fun ⟨hyes, hlt⟩ => absurd (hsign hyes) (by omega)
  rw [lexemesAt_textAfter h hspecial, textAfter_glyphsAt h hspecial hstop, if_neg hwhole, lexemesAt]

/-- If a sign follows more than one character, the last one stands alone. -/
theorem lexemesAt_text_sign (h : pattern[start]? = some ch) (hspecial : Lexeme.isSpecial ch = false)
    (hstop : start + (runAt pattern start).length = stop)
    (hsign : pattern[stop]?.any Lexeme.isSign = true) (hlength : 1 < (runAt pattern start).length) :
    lexemesAt pattern start =
      ⟨Lexeme.textOperand (runAt pattern start).dropLast, start, stop⟩ ::
        ⟨Lexeme.textOperand ((runAt pattern start).drop ((runAt pattern start).length - 1)),
          stop - 1, stop⟩ :: lexemesAt pattern stop := by
  have hlast : start + ((runAt pattern start).length - 1) = stop - 1 := by omega
  have hrun := runAt_add (Nat.sub_le (runAt pattern start).length 1)
  have hone := congrArg List.length hrun
  rw [hlast] at hrun hone
  rw [List.length_drop, Nat.sub_sub_self (by omega)] at hone
  obtain ⟨last, hch, hplain⟩ := exists_of_runAt_ne_nil (List.length_pos_iff.1 (hone ▸ Nat.one_pos))
  rw [lexemesAt_textAfter h hspecial, textAfter_glyphsAt h hspecial hstop,
    if_pos (by rw [hsign, decide_eq_true hlength]; rfl)]
  show _ :: lexemesAt pattern (stop - 1) = _
  have hend : stop - 1 + (runAt pattern (stop - 1)).length = stop := by omega
  rw [lexemesAt_text hch hplain hend (fun _ => hone.le), hrun]

/-! ## Signs and operands -/

theorem settles_ofReading {reading : Reading Instr} (start : Nat) :
    (Lexeme.ofReading start .operand .badOperand reading).1.kind.Settles := by
  rcases reading with ⟨fault, position⟩ | ⟨instr, stop, glyphs⟩
  · trivial
  · trivial

theorem settles_next {g : Glyph} {glyphs : List Glyph}
    (hg : ∀ c, g.kind = .plain c → Lexeme.isSign c = false) :
    (Lexeme.next g glyphs).1.kind.Settles := by
  unfold Lexeme.next
  split
  · next c hc =>
    obtain ⟨hbrace, hsign⟩ := Bool.or_eq_false_iff.1 (hg c hc)
    unfold Lexeme.ofPlain
    split
    · next op hop => rw [hop] at hsign; cases hsign
    · split
      · cases hbrace
      · exact settles_ofReading _
      · split
        · trivial
        · split
          · trivial
          · trivial
      · trivial
      · trivial
      · trivial
      · unfold Lexeme.textAfter
        simp only
        split
        · trivial
        · trivial
  · trivial
  · trivial

/-- Where no sign stands, no sign is the next lexeme. -/
theorem settles_lexemesAt (h : pattern[start]?.any Lexeme.isSign = false) :
    ∀ l ∈ (lexemesAt pattern start).head?, l.kind.Settles := by
  rw [← signFollows_glyphsAt] at h
  rw [lexemesAt]
  cases hg : glyphsAt pattern start with
  | nil =>
    rw [Lexeme.ofGlyphs]
    exact fun _ hl => by cases hl
  | cons g glyphs =>
    rw [Lexeme.ofGlyphs]
    rw [hg] at h
    rintro l hl
    cases hl
    refine settles_next fun c hc => ?_
    rw [Lexeme.signFollows, hc] at h
    exact h

theorem lexemesAt_bar (h : pattern[start]? = some '|') :
    lexemesAt pattern start = ⟨.bar, start, start + 1⟩ :: lexemesAt pattern (start + 1) :=
  lexemesAt_plain h (by decide)

theorem lexemesAt_close (h : pattern[start]? = some ')') :
    lexemesAt pattern start = ⟨.closeGroup, start, start + 1⟩ :: lexemesAt pattern (start + 1) :=
  lexemesAt_plain h (by decide)

theorem lexemesAt_any (h : pattern[start]? = some '.') :
    lexemesAt pattern start = ⟨.operand .any, start, start + 1⟩ :: lexemesAt pattern (start + 1) :=
  lexemesAt_plain h (by decide)

theorem lexemesAt_report (h : pattern[start]? = some '(') (hnext : pattern[start + 1]? = some '!') :
    lexemesAt pattern start =
      ⟨.openGroup true, start, start + 2⟩ :: lexemesAt pattern (start + 2) := by
  rw [lexemesAt_plain h (by decide), glyphsAt_plain hnext (by decide)]
  rfl

theorem lexemesAt_group (h : pattern[start]? = some '(') (hnext : pattern[start + 1]? ≠ some '!') :
    lexemesAt pattern start =
      ⟨.openGroup false, start, start + 1⟩ :: lexemesAt pattern (start + 1) := by
  rw [lexemesAt_plain h (by decide), lexemesAt]
  cases hch : pattern[start + 1]? with
  | none =>
    rw [glyphsAt_end hch]
    rfl
  | some ch =>
    obtain ⟨g, glyphs, hg, -, his⟩ := exists_glyphsAt hch
    have hne : ch ≠ '!' := by
      rintro rfl
      exact hnext hch
    have hnot : g.is '!' = false := by rw [his '!' (by decide), beq_eq_false_iff_ne.2 hne]
    rw [hg]
    show (if g.is '!' then _ else _ : Lexeme × List Glyph).1 ::
      Lexeme.ofGlyphs (if g.is '!' then _ else _ : Lexeme × List Glyph).2 = _
    rw [hnot]
    rfl

theorem lexemesAt_sign {op : Unary} (h : pattern[start]? = some ch)
    (hop : Unary.ofSign? ch = some op) :
    lexemesAt pattern start = ⟨.unary op, start, start + 1⟩ :: lexemesAt pattern (start + 1) := by
  have hslash : ch ≠ '\\' := by
    rintro rfl
    cases hop
  rw [lexemesAt_plain h hslash]
  unfold Lexeme.ofPlain
  rw [hop]
  rfl

theorem lexemesAt_escaped {stop : Nat} (h : glyphsAt pattern start =
    ⟨.escaped ch, start, stop⟩ :: glyphsAt pattern stop) :
    lexemesAt pattern start = ⟨Lexeme.textOperand [ch], start, stop⟩ :: lexemesAt pattern stop :=
  lexemesAt_cons h

theorem lexemesAt_broken {stop : Nat}
    (h : glyphsAt pattern start = [⟨.broken fault, start, stop⟩]) :
    lexemesAt pattern start = ⟨.badOperand fault start, start, stop⟩ :: [] := by
  rw [lexemesAt_cons h]
  show _ :: Lexeme.ofGlyphs [] = _
  rw [Lexeme.ofGlyphs]
  rfl

theorem lexemesAt_class (h : pattern[start]? = some '[') : lexemesAt pattern start =
    (Lexeme.ofReading start .operand .badOperand
        (Lexeme.classAfter start (glyphsAt pattern (start + 1)))).1 ::
      Lexeme.ofGlyphs (Lexeme.ofReading start .operand .badOperand
        (Lexeme.classAfter start (glyphsAt pattern (start + 1)))).2 :=
  lexemesAt_plain h (by decide)

theorem lexemesAt_brace (h : pattern[start]? = some '\x7b') : lexemesAt pattern start =
    (Lexeme.ofReading start (fun b => .bounds b.1 b.2) .badBounds
        (Lexeme.boundsAfter start (start + 1) (glyphsAt pattern (start + 1)))).1 ::
      Lexeme.ofGlyphs (Lexeme.ofReading start (fun b => .bounds b.1 b.2) .badBounds
        (Lexeme.boundsAfter start (start + 1) (glyphsAt pattern (start + 1)))).2 :=
  lexemesAt_plain h (by decide)

end Lexemes

end Descent

end Pattern

end LongestMatch
