import LongestMatch.Proofs.Courses

/-!
# What stands at the cursor

The glyphs from the cursor on are those of the characters from there on (`glyphsAt`). A part of a
parser that reads an escape, a class or the bounds of a repetition takes as many characters as its
glyphs do and finds the same in them, be it a fault.
-/

namespace LongestMatch

namespace Pattern

namespace Descent

/-! ## Glyphs -/

/-- The glyphs of a pattern from a position on. -/
def glyphsAt (pattern : List Char) (position : Nat) : List Glyph :=
  Glyph.ofChars position (pattern.drop position)

/-- The lexemes of a pattern from a position on. -/
def lexemesAt (pattern : List Char) (position : Nat) : List Lexeme :=
  Lexeme.ofGlyphs (glyphsAt pattern position)

section Glyphs

variable {σ : Type} {machine : Machine σ} {pattern : List Char} {start stop position n code : Nat}
  {ch d : Char} {g : Glyph} {rest : List Glyph} {rest' : List Char} {c : Course}

theorem drop_eq_cons (h : pattern[start]? = some ch) :
    pattern.drop start = ch :: pattern.drop (start + 1) := by
  obtain ⟨hlt, rfl⟩ := List.getElem?_eq_some_iff.1 h
  exact List.drop_eq_getElem_cons hlt

theorem glyphsAt_end (h : pattern[start]? = none) : glyphsAt pattern start = [] := by
  unfold glyphsAt
  rw [List.drop_eq_nil_of_le (List.getElem?_eq_none_iff.1 h), Glyph.ofChars]

theorem glyphsAt_plain (h : pattern[start]? = some ch) (hch : ch ≠ '\\') :
    glyphsAt pattern start = ⟨.plain ch, start, start + 1⟩ :: glyphsAt pattern (start + 1) := by
  unfold glyphsAt
  rw [drop_eq_cons h, Glyph.ofChars.eq_def]
  grind

/-! ## Escapes -/

/-- The character whose code point has `n` hexadecimal digits from a position on. -/
def hexAt (pattern : List Char) (position n : Nat) : Option Char :=
  if position + n ≤ pattern.length then Glyph.hexChar? ((pattern.drop position).take n) else none

theorem keeps_hexDigits {Q : Nat → Nat → Course → Prop}
    (hgood : ∀ values, position + n ≤ pattern.length →
      ((pattern.drop position).take n).mapM Glyph.hexValue? = some values →
      Q (values.foldl (fun code value => code * 16 + value) code) (position + n) c)
    (hbad : (position + n ≤ pattern.length →
      ((pattern.drop position).take n).mapM Glyph.hexValue? = none) →
      c = .broken .badHexEscape start) :
    Keeps machine pattern (hexDigits pattern start n code) position c Q := by
  induction n generalizing position code with
  | zero =>
    intro hle
    exact keeps_pure (hgood [] hle (by simp)) hle
  | succ n ih =>
    have hfail (himp : position + (n + 1) ≤ pattern.length →
        ((pattern.drop position).take (n + 1)).mapM Glyph.hexValue? = none) (at' : Nat) :
        Keeps machine pattern (failAt pattern .badHexEscape start) at' c Q :=
      keeps_failAt (hbad himp)
    refine keeps_bind (keeps_bump (fun hend => hfail (fun hle => ?_) _) fun ch hch => ?_)
    · have := List.getElem?_eq_none_iff.1 hend
      omega
    · have hmap : ((pattern.drop position).take (n + 1)).mapM Glyph.hexValue? =
          (Glyph.hexValue? ch).bind fun value =>
            (((pattern.drop (position + 1)).take n).mapM Glyph.hexValue?).map (value :: ·) := by
        rw [drop_eq_cons hch, List.take_succ_cons, List.mapM_cons]
        simp only [Option.bind_eq_bind, Option.pure_def, Option.map_eq_bind, Function.comp_def]
      simp only [Option.bind_some]
      cases hvalue : Glyph.hexValue? ch with
      | none =>
        refine hfail (fun _ => ?_) _
        rw [hmap, hvalue, Option.bind_none]
      | some value =>
        rw [hvalue, Option.bind_some] at hmap
        refine ih (fun values hle hvalues => ?_) fun himp => hbad fun hle => ?_
        · rw [hvalues] at hmap
          have h := hgood (value :: values) (by omega) hmap
          rwa [Nat.add_assoc, Nat.add_comm 1 n]
        · rw [hmap, himp (by omega), Option.map_none]

theorem keeps_hex {Q : Char → Nat → Course → Prop}
    (hgood : ∀ ch, hexAt pattern position n = some ch → Q ch (position + n) c)
    (hbad : hexAt pattern position n = none → c = .broken .badHexEscape start) :
    Keeps machine pattern (hex pattern start n) position c Q := by
  unfold hexAt at hgood hbad
  refine keeps_bind (keeps_hexDigits (fun values hle hvalues => ?_) fun himp => hbad ?_)
  · have hchar : Glyph.hexChar? ((pattern.drop position).take n) =
        scalar? (values.foldl (fun code value => code * 16 + value) 0) := by
      rw [Glyph.hexChar?, hvalues]
      rfl
    rw [if_pos hle, hchar] at hgood hbad
    cases hscalar : scalar? (values.foldl (fun code value => code * 16 + value) 0) with
    | some ch => exact keeps_pure (hgood ch hscalar)
    | none => exact keeps_failAt (hbad hscalar)
  · split
    · next hle =>
      rw [Glyph.hexChar?, himp hle]
      rfl
    · rfl

theorem length_drop_two (h : pattern.drop start = '\\' :: d :: rest') :
    pattern.length = start + 2 + rest'.length ∧ pattern.drop (start + 2) = rest' := by
  have hlength := congrArg List.length h
  rw [List.length_drop] at hlength
  simp only [List.length_cons] at hlength
  refine ⟨by omega, ?_⟩
  rw [← List.drop_drop, h]
  rfl

theorem glyphsAt_hex (h : pattern.drop start = '\\' :: 'x' :: rest') :
    (∀ ch, hexAt pattern (start + 2) 2 = some ch → glyphsAt pattern start =
      ⟨.escaped ch, start, start + 4⟩ :: glyphsAt pattern (start + 4)) ∧
      (hexAt pattern (start + 2) 2 = none →
        ∃ stop, glyphsAt pattern start = [⟨.broken .badHexEscape, start, stop⟩]) := by
  obtain ⟨hlength, hdrop⟩ := length_drop_two h
  have hafter : pattern.drop (start + 4) = rest'.drop 2 := by
    rw [← hdrop, List.drop_drop]
  unfold hexAt glyphsAt
  rw [h, hdrop, hafter, hlength]
  match rest' with
  | [] => simp [Glyph.ofChars]
  | [a] => simp [Glyph.ofChars]
  | a :: b :: rest'' =>
    cases hchar : Glyph.hexChar? [a, b] with
    | none => simp [Glyph.ofChars, hchar]
    | some ch => simp [Glyph.ofChars, hchar]

theorem glyphsAt_wide (h : pattern.drop start = '\\' :: 'u' :: rest') :
    (∀ ch, hexAt pattern (start + 2) 4 = some ch → glyphsAt pattern start =
      ⟨.escaped ch, start, start + 6⟩ :: glyphsAt pattern (start + 6)) ∧
      (hexAt pattern (start + 2) 4 = none →
        ∃ stop, glyphsAt pattern start = [⟨.broken .badHexEscape, start, stop⟩]) := by
  obtain ⟨hlength, hdrop⟩ := length_drop_two h
  have hafter : pattern.drop (start + 6) = rest'.drop 4 := by
    rw [← hdrop, List.drop_drop]
  unfold hexAt glyphsAt
  rw [h, hdrop, hafter, hlength]
  match rest' with
  | [] => simp [Glyph.ofChars]
  | [a] => simp [Glyph.ofChars]
  | [a, b] => simp [Glyph.ofChars]
  | [a, b, e] => simp [Glyph.ofChars]
  | a :: b :: e :: f :: rest'' =>
    cases hchar : Glyph.hexChar? [a, b, e, f] with
    | none => simp [Glyph.ofChars, hchar]
    | some ch => simp [Glyph.ofChars, hchar]

/-- The escape at a position is read as its glyph tells. -/
theorem keeps_escape {Q : Char → Nat → Course → Prop} (h : pattern[start]? = some '\\')
    (hgood : ∀ ch stop, start < stop → glyphsAt pattern start =
      ⟨.escaped ch, start, stop⟩ :: glyphsAt pattern stop → Q ch stop c)
    (hbad : ∀ fault stop, glyphsAt pattern start = [⟨.broken fault, start, stop⟩] →
      c = .broken fault start) :
    Keeps machine pattern (escape pattern start) (start + 1) c Q := by
  have hdrop := drop_eq_cons h
  refine keeps_bind (keeps_bump (fun hend => ?_) fun ch hch => ?_)
  · have hglyphs : glyphsAt pattern start = [⟨.broken .escapeAtEnd, start, start + 1⟩] := by
      unfold glyphsAt
      rw [hdrop, List.drop_eq_nil_of_le (List.getElem?_eq_none_iff.1 hend), Glyph.ofChars]
    exact keeps_failAt (hbad _ _ hglyphs)
  · rw [drop_eq_cons hch] at hdrop
    split
    · next heq => cases heq
    · next heq =>
      cases heq
      refine keeps_hex (fun ch hch => hgood _ _ (by omega) ((glyphsAt_hex hdrop).1 ch hch))
        fun hnone => ?_
      obtain ⟨stop, hglyphs⟩ := (glyphsAt_hex hdrop).2 hnone
      exact hbad _ _ hglyphs
    · next heq =>
      cases heq
      refine keeps_hex (fun ch hch => hgood _ _ (by omega) ((glyphsAt_wide hdrop).1 ch hch))
        fun hnone => ?_
      obtain ⟨stop, hglyphs⟩ := (glyphsAt_wide hdrop).2 hnone
      exact hbad _ _ hglyphs
    · next hx hu heq =>
      cases heq
      refine keeps_pure (hgood _ _ (by omega) ?_)
      unfold glyphsAt
      rw [hdrop, Glyph.ofChars.eq_def]
      grind

/-! ## Classes -/

theorem ofChars_slash (start : Nat) (tail : List Char) :
    ∃ kind stop rest, Glyph.ofChars start ('\\' :: tail) = ⟨kind, start, stop⟩ :: rest ∧
      ∀ d, kind ≠ .plain d := by
  generalize htext : '\\' :: tail = text
  fun_cases Glyph.ofChars start text with
  | case1 => cases htext
  | case10 c rest hnil _ _ _ _ hne =>
    cases htext
    cases tail with
    | nil => exact absurd rfl (hnil rfl)
    | cons d tail => exact absurd rfl (hne _ _ rfl)
  | _ => exact ⟨_, _, _, rfl, fun _ h => by cases h⟩

theorem glyphsAt_slash (h : pattern[start]? = some '\\') :
    ∃ kind stop rest, glyphsAt pattern start = ⟨kind, start, stop⟩ :: rest ∧
      ∀ d, kind ≠ .plain d := by
  rw [glyphsAt, drop_eq_cons h]
  exact ofChars_slash start _

/-- Where a character stands, a glyph begins. Only a backslash is not the character as it is. -/
theorem exists_glyphsAt (h : pattern[start]? = some ch) :
    ∃ g rest, glyphsAt pattern start = g :: rest ∧ g.start = start ∧
      ∀ d, d ≠ '\\' → g.is d = (ch == d) := by
  by_cases hch : ch = '\\'
  · subst hch
    obtain ⟨kind, stop, rest, hg, hkind⟩ := glyphsAt_slash h
    refine ⟨_, rest, hg, rfl, fun d hd => ?_⟩
    rw [Glyph.is, beq_eq_false_iff_ne.2 (hkind d), beq_eq_false_iff_ne.2 hd.symm]
  · refine ⟨_, _, glyphsAt_plain h hch, rfl, fun d _ => ?_⟩
    simp [Glyph.is]

theorem keeps_unescape {Q : Char → Nat → Course → Prop} (h : pattern[start]? = some ch)
    (hg : glyphsAt pattern start = g :: rest)
    (hgood : ∀ d stop, start < stop → g.char = .ok d → rest = glyphsAt pattern stop → Q d stop c)
    (hbad : ∀ fault, g.char = .error (fault, start) → c = .broken fault start) :
    Keeps machine pattern (unescape pattern start ch) (start + 1) c Q := by
  unfold unescape
  split
  · next hslash =>
    subst hslash
    refine keeps_escape h (fun d stop hlt hg' => ?_) fun fault stop hg' => ?_
    · rw [hg] at hg'
      cases hg'
      exact hgood d stop hlt rfl rfl
    · rw [hg] at hg'
      cases hg'
      exact hbad fault rfl
  · next hch =>
    rw [glyphsAt_plain h hch] at hg
    cases hg
    exact keeps_pure (hgood ch _ (Nat.lt_succ_self _) rfl rfl)

theorem classItem_range {opened : Nat} {lo : Char} {dash : Glyph} {tail : List Glyph}
    (hlo : g.char = .ok lo) (hdash : dash.is '-' = true) :
    Lexeme.classItem opened g (dash :: tail) =
      match tail with
      | [] => .error (.unexpectedEnd, opened)
      | bound :: after =>
        if bound.is ']' then .error (.badRange, g.start)
        else
          match bound.char with
          | .error fault => .error fault
          | .ok hi => if hi < lo then .error (.badRange, g.start) else .ok (⟨lo, hi⟩, after) := by
  rw [Lexeme.classItem, hlo]
  simp only [bind, Except.bind, hdash]
  cases tail with
  | nil => rfl
  | cons bound after =>
    simp only [if_true]
    cases bound.is ']' with
    | true => rfl
    | false => cases bound.char <;> rfl

/-- The range behind a dash at a position is read as its glyphs tell. -/
theorem keeps_classRange {Q : CharRange → Nat → Course → Prop} {opened mid : Nat} {lo : Char}
    {dash : Glyph} (hlo : g.char = .ok lo) (hstart : g.start = start) (hdash : dash.is '-' = true)
    (hgood : ∀ r stop, mid < stop →
      Lexeme.classItem opened g (dash :: glyphsAt pattern mid) = .ok (r, glyphsAt pattern stop) →
        Q r stop c)
    (hbad : ∀ fault position,
      Lexeme.classItem opened g (dash :: glyphsAt pattern mid) = .error (fault, position) →
        c = .broken fault position) :
    Keeps machine pattern (classRange pattern opened start lo) mid c Q := by
  rw [classItem_range hlo hdash] at hgood hbad
  refine keeps_bind (keeps_cursor (keeps_bind (keeps_bump (fun hend => ?_) fun ch hch => ?_)))
  · rw [glyphsAt_end hend] at hbad
    exact keeps_failAt (hbad _ _ rfl)
  · obtain ⟨bound, after, hbound, hmid, his⟩ := exists_glyphsAt hch
    simp only [hbound, his ']' (by decide)] at hgood hbad
    simp only
    by_cases hclose : ch = ']'
    · rw [if_pos hclose]
      rw [if_pos (beq_iff_eq.2 hclose), hstart] at hbad
      exact keeps_failAt (hbad _ _ rfl)
    · rw [if_neg hclose]
      rw [if_neg (by simpa using hclose)] at hgood hbad
      refine keeps_bind (keeps_unescape hch hbound (fun hi stop hlt hhi hafter => ?_)
        fun fault hhi => ?_)
      · rw [hhi] at hgood hbad
        simp only at hgood hbad
        refine keeps_bind (keeps_check (fun hle => keeps_pure (hgood _ _ hlt ?_)) fun hnle => ?_)
        · rw [if_neg (Char.not_lt.2 (of_decide_eq_true hle)), hafter]
        · rw [if_pos (Char.not_le.1 (of_decide_eq_false hnle)), hstart] at hbad
          exact hbad _ _ rfl
      · rw [hhi] at hbad
        exact hbad _ _ rfl

theorem classItem_single {opened : Nat} {lo : Char} (hlo : g.char = .ok lo)
    (hnext : ∀ dash tail, rest = dash :: tail → dash.is '-' = false) :
    Lexeme.classItem opened g rest = .ok (CharRange.single lo, rest) := by
  rw [Lexeme.classItem, hlo]
  simp only [bind, Except.bind]
  cases rest with
  | nil => rfl
  | cons dash tail =>
    simp only [hnext dash tail rfl]
    rfl

/-- An item of a class is read as its glyphs tell. -/
theorem keeps_classItem {Q : CharRange → Nat → Course → Prop} {opened : Nat}
    (h : pattern[start]? = some ch) (hg : glyphsAt pattern start = g :: rest)
    (hstart : g.start = start)
    (hgood : ∀ r stop, start < stop →
      Lexeme.classItem opened g rest = .ok (r, glyphsAt pattern stop) → Q r stop c)
    (hbad : ∀ fault position, Lexeme.classItem opened g rest = .error (fault, position) →
      c = .broken fault position) :
    Keeps machine pattern (classItem pattern opened start ch) (start + 1) c Q := by
  refine keeps_bind (keeps_unescape h hg (fun lo mid hlt hlo hrest => ?_) fun fault hlo => ?_)
  · subst hrest
    refine keeps_bind (keeps_peek ?_)
    split
    · next hdash =>
      have hrest := glyphsAt_plain hdash (by decide)
      have hlength : mid < pattern.length := (List.getElem?_eq_some_iff.1 hdash).1
      rw [hrest] at hgood hbad
      exact keeps_bind (keeps_advance hlength (keeps_classRange hlo hstart rfl
        (fun r stop hlt' => hgood r stop (by omega)) hbad))
    · next hnext =>
      refine keeps_pure (hgood _ _ hlt (classItem_single hlo fun dash tail htail => ?_))
      cases hch : pattern[mid]? with
      | none =>
        rw [glyphsAt_end hch] at htail
        cases htail
      | some next =>
        obtain ⟨dash', tail', hdash', _, his⟩ := exists_glyphsAt hch
        rw [hdash'] at htail
        cases htail
        rw [his '-' (by decide), beq_eq_false_iff_ne]
        rintro rfl
        exact hnext hch
  · refine hbad fault start ?_
    rw [Lexeme.classItem, hlo]
    rfl

/-- The items of a class are read as their glyphs tell. -/
theorem keeps_classItems {Q : List CharRange → Nat → Course → Prop} {opened fuel : Nat}
    {first : Bool} {ranges : List CharRange} (hfuel : pattern.length < start + fuel)
    (hgood : ∀ rs stop, start < stop →
      Lexeme.classItems opened first ranges (glyphsAt pattern start) =
        .ok (rs, stop, glyphsAt pattern stop) → Q rs stop c)
    (hbad : ∀ fault position, Lexeme.classItems opened first ranges (glyphsAt pattern start) =
      .error (fault, position) → c = .broken fault position) :
    Keeps machine pattern (classItems pattern opened fuel first ranges) start c Q := by
  induction fuel generalizing start first ranges with
  | zero => exact fun hle => absurd hfuel (by omega)
  | succ fuel ih =>
    refine keeps_bind (keeps_cursor (keeps_bind (keeps_bump (fun hend => ?_) fun ch hch => ?_)))
    · rw [glyphsAt_end hend, Lexeme.classItems] at hbad
      exact keeps_failAt (hbad _ _ rfl)
    · obtain ⟨g, rest, hg, hstart, his⟩ := exists_glyphsAt hch
      rw [hg, Lexeme.classItems, his ']' (by decide), his '-' (by decide)] at hgood hbad
      simp only
      split
      · next hclose =>
        obtain ⟨-, rfl⟩ : _ ∧ ch = ']' := by simpa using hclose
        rw [glyphsAt_plain hch (by decide)] at hg
        cases hg
        rw [if_pos hclose] at hgood
        exact keeps_pure (hgood _ _ (Nat.lt_succ_self start) rfl)
      · next hclose =>
        rw [if_neg hclose] at hgood hbad
        split
        · next hdash =>
          rw [if_pos hdash, hstart] at hbad
          exact keeps_failAt (hbad _ _ rfl)
        · next hdash =>
          rw [if_neg hdash] at hgood hbad
          refine keeps_bind (keeps_classItem hch hg hstart (fun r stop hlt hitem => ?_)
            fun fault position hitem => ?_)
          · refine ih (by omega) (fun rs late hlt' hrs => hgood rs late (by omega) ?_)
              fun fault position hrs => hbad fault position ?_
            · split
              · next heq => rw [hitem] at heq; cases heq
              · next heq => rw [hitem] at heq; cases heq; exact hrs
            · split
              · next heq => rw [hitem] at heq; cases heq
              · next heq => rw [hitem] at heq; cases heq; exact hrs
          · refine hbad fault position ?_
            split
            · next heq => rw [hitem] at heq; cases heq; rfl
            · next heq => rw [hitem] at heq; cases heq

/-- A class is read as its glyphs tell, and then the machine is called. -/
theorem keeps_charClass {Q : Unit → Nat → Course → Prop} {opened : Nat}
    (hgood : ∀ instr stop, start < stop → Lexeme.classAfter opened (glyphsAt pattern start) =
      .ok (instr, stop, glyphsAt pattern stop) → ∃ c', c = c'.after [(instr, stop)] ∧ Q () stop c')
    (hbad : ∀ fault position, Lexeme.classAfter opened (glyphsAt pattern start) =
      .error (fault, position) → c = .broken fault position) :
    Keeps machine pattern (charClass machine pattern opened) start c Q := by
  have hbody (inverted : Bool) (mid : Nat) (hle : start ≤ mid)
      (hafter : Lexeme.classAfter opened (glyphsAt pattern start) =
        (Lexeme.classItems opened true [] (glyphsAt pattern mid)).map fun r =>
          (.set r.1 inverted, r.2)) :
      Keeps machine pattern
        (do
          let ranges ← classItems pattern opened (pattern.length + 1) true []
          emit machine pattern (.set ranges inverted))
        mid c Q := by
    rw [hafter] at hgood hbad
    refine keeps_bind (keeps_classItems (by omega) (fun rs stop hlt hrs => ?_)
      fun fault position hrs => hbad _ _ ?_)
    · obtain ⟨c', rfl, hQ⟩ := hgood (.set rs inverted) stop (by omega) (by rw [hrs]; rfl)
      exact keeps_emit hQ
    · rw [hrs]
      rfl
  refine keeps_bind (keeps_peek ?_)
  cases hch : pattern[start]? with
  | none =>
    refine keeps_bind (keeps_pure (hbody false start (Nat.le_refl _) ?_))
    rw [glyphsAt_end hch]
    rfl
  | some ch =>
    obtain ⟨g, rest, hg, -, his⟩ := exists_glyphsAt hch
    by_cases hcaret : ch = '^'
    · subst hcaret
      have hlength : start < pattern.length := (List.getElem?_eq_some_iff.1 hch).1
      refine keeps_bind (keeps_advance hlength (hbody true (start + 1) (Nat.le_succ _) ?_))
      rw [glyphsAt_plain hch (by decide)]
      rfl
    · have hplain : (some ch == some '^') = false := by simpa using hcaret
      rw [hplain]
      refine keeps_bind (keeps_pure (hbody false start (Nat.le_refl _) ?_))
      rw [hg, Lexeme.classAfter]
      simp only [his '^' (by decide), beq_eq_false_iff_ne.2 hcaret]
      rfl

end Glyphs

section Bounds

variable {σ : Type} {machine : Machine σ} {pattern : List Char}
  {start stop position n value min opened fuel : Nat} {ch d : Char} {g : Glyph}
  {rest glyphs : List Glyph} {c : Course}

/-! ## Bounds of a repetition -/

/-- A digit stands at the cursor if a glyph that is a digit does. -/
theorem digit?_glyphsAt (pattern : List Char) (start : Nat) :
    (glyphsAt pattern start).head?.bind Glyph.digit? = pattern[start]?.bind digit? := by
  cases hch : pattern[start]? with
  | none =>
    rw [glyphsAt_end hch]
    rfl
  | some ch =>
    by_cases hslash : ch = '\\'
    · subst hslash
      obtain ⟨kind, stop, rest, hg, hkind⟩ := glyphsAt_slash hch
      rw [hg]
      cases kind with
      | plain d => exact absurd rfl (hkind d)
      | _ => rfl
    · rw [glyphsAt_plain hch hslash]
      rfl

theorem startsNumber_glyphsAt (pattern : List Char) (start : Nat) :
    Lexeme.startsNumber (glyphsAt pattern start) = (pattern[start]?.bind digit?).isSome := by
  rw [← digit?_glyphsAt]
  cases glyphsAt pattern start <;> rfl

theorem digitsAfter_of_none (h : glyphs.head?.bind Glyph.digit? = none) :
    Lexeme.digitsAfter position value glyphs = .ok (value, position, glyphs) := by
  cases glyphs with
  | nil => rfl
  | cons g rest =>
    have hg : g.digit? = none := h
    rw [Lexeme.digitsAfter, hg]

/-- Digits at a position are read as their glyphs tell. -/
theorem keeps_digits {Q : Option Nat → Nat → Course → Prop} (hfuel : pattern.length < start + fuel)
    (hgood : ∀ v stop, start ≤ stop → (start < stop ↔ (pattern[start]?.bind digit?).isSome) →
      Lexeme.digitsAfter start value (glyphsAt pattern start) =
        .ok (v, stop, glyphsAt pattern stop) → Q (some v) stop c)
    (hbad : ∀ stop, Lexeme.digitsAfter start value (glyphsAt pattern start) =
      .error (.badRepeat, stop) → Q none stop c) :
    Keeps machine pattern (digits pattern fuel value) start c Q := by
  induction fuel generalizing start value with
  | zero => exact fun hle => absurd hfuel (by omega)
  | succ fuel ih =>
    refine keeps_bind (keeps_peek ?_)
    cases hdigit : pattern[start]?.bind digit? with
    | none =>
      refine keeps_pure (hgood value start (Nat.le_refl _) (by simp [hdigit]) ?_)
      exact digitsAfter_of_none ((digit?_glyphsAt pattern start).trans hdigit)
    | some digit =>
      obtain ⟨ch, hch, hvalue⟩ := Option.bind_eq_some_iff.1 hdigit
      have hslash : ch ≠ '\\' := by
        rintro rfl
        cases hvalue
      have hlength : start < pattern.length := (List.getElem?_eq_some_iff.1 hch).1
      have hplain : Glyph.digit? ⟨.plain ch, start, start + 1⟩ = some digit := hvalue
      rw [glyphsAt_plain hch hslash, Lexeme.digitsAfter, hplain] at hgood hbad
      simp only at hgood hbad ⊢
      split
      · next hgreat =>
        rw [if_pos hgreat] at hbad
        exact keeps_pure (hbad start rfl)
      · next hfits =>
        rw [if_neg hfits] at hgood hbad
        refine keeps_bind (keeps_advance hlength (ih (by omega) (fun v stop hle _ hv => ?_) hbad))
        exact hgood v stop (by omega) (by simp [hdigit]; omega) hv

/-- A number at a position is read as its glyphs tell. -/
theorem keeps_number {Q : Nat → Nat → Course → Prop}
    (hgood : ∀ v stop, start ≤ stop → Lexeme.number start (glyphsAt pattern start) =
      .ok (v, stop, glyphsAt pattern stop) → Q v stop c)
    (hbad : ∀ fault position, Lexeme.number start (glyphsAt pattern start) =
      .error (fault, position) → c = .broken fault position) :
    Keeps machine pattern (number pattern) start c Q := by
  unfold Lexeme.number at hgood hbad
  rw [startsNumber_glyphsAt] at hgood hbad
  refine keeps_bind (keeps_cursor (keeps_bind (keeps_digits (by omega)
    (fun v stop hle hiff hv => ?_) fun stop hv => ?_)))
  · refine keeps_bind (keeps_cursor (keeps_bind (keeps_check (fun hlt => keeps_pure ?_)
      fun hnlt => ?_)))
    · rw [if_pos (hiff.1 (of_decide_eq_true hlt))] at hgood
      exact hgood v stop hle hv
    · have hnlt := of_decide_eq_false hnlt
      rw [if_neg fun hsome => hnlt (hiff.2 hsome)] at hbad
      obtain rfl : stop = start := by omega
      exact hbad _ _ rfl
  · have hsome : (pattern[start]?.bind digit?).isSome = true := by
      rw [Option.isSome_iff_ne_none, ← digit?_glyphsAt]
      intro hnone
      rw [digitsAfter_of_none hnone] at hv
      cases hv
    rw [if_pos hsome] at hbad
    exact keeps_fail (hbad _ _ hv)

/-- An upper bound at a position is read as its glyphs tell. -/
theorem keeps_upperBound {Q : Option Nat → Nat → Course → Prop}
    (hgood : ∀ max stop, start ≤ stop → Lexeme.upperBound min start (glyphsAt pattern start) =
      .ok (max, stop, glyphsAt pattern stop) → Q max stop c)
    (hbad : ∀ fault position, Lexeme.upperBound min start (glyphsAt pattern start) =
      .error (fault, position) → c = .broken fault position) :
    Keeps machine pattern (upperBound pattern min) start c Q := by
  refine keeps_bind (keeps_peek ?_)
  split
  · next hcomma =>
    have hlength : start < pattern.length := (List.getElem?_eq_some_iff.1 hcomma).1
    have hupper : Lexeme.upperBound min start (glyphsAt pattern start) =
        if Lexeme.startsNumber (glyphsAt pattern (start + 1)) then
          (Lexeme.number (start + 1) (glyphsAt pattern (start + 1))).map fun r => (some r.1, r.2)
        else .ok (none, start + 1, glyphsAt pattern (start + 1)) := by
      rw [glyphsAt_plain hcomma (by decide)]
      rfl
    rw [hupper, startsNumber_glyphsAt] at hgood hbad
    refine keeps_bind (keeps_advance hlength (keeps_bind (keeps_peek ?_)))
    split
    · next hnumber =>
      rw [if_pos hnumber] at hgood hbad
      refine keeps_bind (keeps_number (fun v stop hle hv => keeps_pure (hgood _ _ (by omega) ?_))
        fun fault position hv => hbad _ _ ?_)
      · rw [hv]
        rfl
      · rw [hv]
        rfl
    · next hnumber =>
      rw [if_neg hnumber] at hgood
      exact keeps_pure (hgood _ _ (Nat.le_succ start) rfl)
  · next hcomma =>
    refine keeps_pure (hgood _ _ (Nat.le_refl start) ?_)
    cases hch : pattern[start]? with
    | none =>
      rw [glyphsAt_end hch]
      rfl
    | some ch =>
      obtain ⟨g, rest, hg, -, his⟩ := exists_glyphsAt hch
      have hne : ch ≠ ',' := by
        rintro rfl
        exact hcomma hch
      rw [hg, Lexeme.upperBound, his ',' (by decide), beq_eq_false_iff_ne.2 hne]
      rfl

/-- Bounds at a position are read as their glyphs tell. -/
theorem keeps_bounds {Q : Nat × Option Nat → Nat → Course → Prop}
    (hgood : ∀ b stop, start ≤ stop → Lexeme.boundsAfter opened start (glyphsAt pattern start) =
      .ok (b, stop, glyphsAt pattern stop) → Q b stop c)
    (hbad : ∀ fault position, Lexeme.boundsAfter opened start (glyphsAt pattern start) =
      .error (fault, position) → c = .broken fault position) :
    Keeps machine pattern (bounds pattern opened) start c Q := by
  unfold Lexeme.boundsAfter at hgood hbad
  refine keeps_bind (keeps_number (fun min mid hmid hmin => ?_) fun fault position hmin => ?_)
  · rw [hmin] at hgood hbad
    refine keeps_bind (keeps_upperBound (fun max late hlate hmax => ?_)
      fun fault position hmax => ?_)
    · simp only [bind, Except.bind, hmax] at hgood hbad
      refine keeps_bind (keeps_bump (fun hend => ?_) fun ch hch => ?_)
      · rw [glyphsAt_end hend] at hbad
        exact keeps_bind (keeps_check (fun h => by cases h) fun _ => hbad _ _ rfl)
      · obtain ⟨g, rest, hg, -, his⟩ := exists_glyphsAt hch
        rw [hg] at hgood hbad
        simp only [his '\x7d' (by decide)] at hgood hbad
        refine keeps_bind (keeps_check (fun hbrace => ?_) fun hbrace => ?_)
        · obtain rfl : ch = '\x7d' := by simpa using hbrace
          rw [glyphsAt_plain hch (by decide)] at hg
          cases hg
          refine keeps_bind (keeps_check (fun horder => keeps_pure (hgood _ _ (by omega) ?_))
            fun horder => hbad _ _ ?_)
          · simp only [horder]
            rfl
          · simp only [horder]
            rfl
        · have hbrace : (ch == '\x7d') = false := by simpa using hbrace
          simp only [hbrace] at hbad
          exact hbad _ _ rfl
    · simp only [bind, Except.bind, hmax] at hbad
      exact hbad _ _ rfl
  · rw [hmin] at hbad
    exact hbad _ _ rfl

/-- A repetition at a position is read as its glyphs tell, and then the machine is called. -/
theorem keeps_repetition {Q : Unit → Nat → Course → Prop}
    (hgood : ∀ b stop, start ≤ stop → Lexeme.boundsAfter opened start (glyphsAt pattern start) =
      .ok (b, stop, glyphsAt pattern stop) →
        ∃ c', c = c'.after ((Pattern.repetition b.1 b.2 stop).flatMap Stretch.calls) ∧ Q () stop c')
    (hbad : ∀ fault position, Lexeme.boundsAfter opened start (glyphsAt pattern start) =
      .error (fault, position) → c = .broken fault position) :
    Keeps machine pattern (repetition machine pattern opened) start c Q := by
  refine keeps_bind (keeps_bounds (fun b stop hle hb => ?_) hbad)
  obtain ⟨c', rfl, hQ⟩ := hgood b stop hle hb
  rw [flatMap_calls_repetition]
  obtain ⟨min, _ | max⟩ := b
  · exact (issues_unbounded min).keeps hQ
  · exact (issues_bounded min max).keeps hQ

end Bounds

end Descent

end Pattern

end LongestMatch
