import LongestMatch.Proofs.Assembly
import LongestMatch.Proofs.Construction

/-!
# Escapes, classes and bounds are read as the grammar says

Symbols of a text are the kinds of its glyphs. What the reader makes of a class in brackets and of
the bounds of a repetition is stated in both directions: what it reads is derived by the grammar
(`class_of_classAfter`, `bounds_of_boundsAfter`), and what the grammar derives is read
(`classAfter_of_class`, `boundsAfter_of_bounds`), wherever it stands.
-/

namespace LongestMatch

namespace Pattern

/-! ## Glyphs -/

/-- The symbols of glyphs. -/
def kinds (glyphs : List Glyph) : List Glyph.Kind :=
  glyphs.map Glyph.kind

@[simp] theorem kinds_nil : kinds [] = [] :=
  rfl

@[simp] theorem kinds_cons (g : Glyph) (glyphs : List Glyph) :
    kinds (g :: glyphs) = g.kind :: kinds glyphs :=
  rfl

theorem kinds_eq_cons {glyphs : List Glyph} {k : Glyph.Kind} {ks : List Glyph.Kind} :
    kinds glyphs = k :: ks ↔ ∃ g rest, glyphs = g :: rest ∧ g.kind = k ∧ kinds rest = ks := by
  cases glyphs with
  | nil => simp
  | cons g rest => simp

theorem Glyph.is_iff {g : Glyph} {c : Char} : g.is c = true ↔ g.kind = .plain c := by
  rw [is, beq_iff_eq]

theorem Glyph.is_eq_false_iff {g : Glyph} {c : Char} : g.is c = false ↔ g.kind ≠ .plain c := by
  rw [← Bool.not_eq_true, is_iff]

theorem Glyph.char_eq_ok {g : Glyph} {c : Char} : g.char = .ok c ↔ Stands g.kind c := by
  unfold char
  constructor
  · intro h
    split at h
    · next hk =>
      cases h
      rw [hk]
      exact .plain _
    · next hk =>
      cases h
      rw [hk]
      exact .escaped _
    · cases h
  · intro h
    generalize g.kind = k at h
    cases h <;> rfl

/-- The glyphs of a text that is well-formed do not depend on what comes after it. -/
theorem kinds_ofChars_append {text : List Char} {ks : List Glyph.Kind} (h : Spells text ks)
    (rest : List Char) (position : Nat) :
    ∃ stop, kinds (Glyph.ofChars position (text ++ rest)) = ks ++ kinds (Glyph.ofChars stop rest) := by
  induction h generalizing position with
  | nil => exact ⟨position, rfl⟩
  | plain hc _ ih =>
    obtain ⟨stop, hstop⟩ := ih (position + 1)
    refine ⟨stop, ?_⟩
    rw [List.cons_append, List.cons_append, ← hstop, Glyph.ofChars.eq_def]
    split <;> simp_all
  | hex hc _ ih =>
    obtain ⟨stop, hstop⟩ := ih (position + 4)
    exact ⟨stop, by simp [Glyph.ofChars, hc, hstop]⟩
  | wide hc _ ih =>
    obtain ⟨stop, hstop⟩ := ih (position + 6)
    exact ⟨stop, by simp [Glyph.ofChars, hc, hstop]⟩
  | escaped hx hu _ ih =>
    obtain ⟨stop, hstop⟩ := ih (position + 2)
    exact ⟨stop, by simp [Glyph.ofChars, hx, hu, hstop]⟩

theorem kinds_ofChars {text : List Char} {ks : List Glyph.Kind} (h : Spells text ks)
    (position : Nat) : kinds (Glyph.ofChars position text) = ks := by
  obtain ⟨stop, hstop⟩ := kinds_ofChars_append h [] position
  simpa [Glyph.ofChars] using hstop

/-- Where no glyph is broken, the text is written in the symbols of its glyphs. -/
theorem spells_ofChars (position : Nat) (text : List Char)
    (h : ∀ fault, .broken fault ∉ kinds (Glyph.ofChars position text)) :
    Spells text (kinds (Glyph.ofChars position text)) := by
  have hrest : ∀ {k : Glyph.Kind} {ks : List Glyph.Kind},
      (∀ fault, .broken fault ∉ k :: ks) → ∀ fault, .broken fault ∉ ks :=
    fun h fault hmem => h fault (List.mem_cons_of_mem _ hmem)
  fun_induction Glyph.ofChars position text with
  | case1 => exact .nil
  | case2 => -- a backslash at the end
    exact absurd List.mem_cons_self (h _)
  | case3 _ _ _ _ _ hc ih => exact .hex hc (ih (hrest h))
  | case4 => -- two characters that are no digits
    exact absurd List.mem_cons_self (h _)
  | case5 => -- not two characters
    exact absurd List.mem_cons_self (h _)
  | case6 _ _ _ _ _ _ _ hc ih => exact .wide hc (ih (hrest h))
  | case7 => -- four characters that are no digits
    exact absurd List.mem_cons_self (h _)
  | case8 => -- not four characters
    exact absurd List.mem_cons_self (h _)
  | case9 _ c rest _ hx _ hu ih => exact .escaped hx hu (ih (hrest h))
  | case10 _ c rest hend _ _ _ _ hslash ih => -- no backslash
    refine .plain (fun hc => ?_) (ih (hrest h))
    cases rest with
    | nil => exact hend hc rfl
    | cons d rest => exact hslash d rest hc rfl

/-- No glyph is a bare backslash. -/
theorem notMem_kinds_ofChars (position : Nat) (text : List Char) :
    .plain '\\' ∉ kinds (Glyph.ofChars position text) := by
  have hcons : ∀ {k : Glyph.Kind} {ks : List Glyph.Kind}, k ≠ .plain '\\' → .plain '\\' ∉ ks →
      .plain '\\' ∉ k :: ks := by
    intro k ks hk hks hmem
    rcases List.mem_cons.1 hmem with heq | hmem
    · exact hk heq.symm
    · exact hks hmem
  fun_induction Glyph.ofChars position text with
  | case1 => nofun
  | case2 => exact hcons nofun nofun
  | case3 _ _ _ _ _ _ ih => exact hcons nofun ih
  | case4 => exact hcons nofun nofun
  | case5 => exact hcons nofun nofun
  | case6 _ _ _ _ _ _ _ _ ih => exact hcons nofun ih
  | case7 => exact hcons nofun nofun
  | case8 => exact hcons nofun nofun
  | case9 _ _ _ _ _ _ _ ih => exact hcons nofun ih
  | case10 _ c rest hend _ _ _ _ hslash ih => -- the only glyph of a bare character
    refine hcons (fun hk => ?_) ih
    cases hk
    cases rest with
    | nil => exact hend rfl rfl
    | cons d rest => exact hslash d rest rfl rfl

/-! ## Classes -/

theorem Item.exists_head {first : Bool} {ls : List Glyph.Kind} {r : CharRange}
    (h : Item first ls r) :
    ∃ k ls', ls = k :: ls' ∧ (first = false → k ≠ .plain ']' ∧ k ≠ .plain '-') := by
  cases h with
  | single _ hfirst => exact ⟨_, _, rfl, hfirst⟩
  | range _ hfirst => exact ⟨_, _, rfl, hfirst⟩

theorem Items.exists_head {first : Bool} {ls : List Glyph.Kind} {rs : List CharRange}
    (h : Items first ls rs) :
    ∃ k ls', ls = k :: ls' ∧ (first = false → k ≠ .plain ']' ∧ k ≠ .plain '-') := by
  cases h with
  | one h => exact h.exists_head
  | cons h _ =>
    obtain ⟨k, ls', rfl, hk⟩ := h.exists_head
    exact ⟨k, _, rfl, hk⟩

namespace Lexeme

variable {opened position value stop : Nat} {first inverted : Bool} {g : Glyph}
  {rest after glyphs : List Glyph} {ks ls : List Glyph.Kind} {r : CharRange}
  {ranges rs : List CharRange} {n m : Nat}

/-- Where an item may begin. -/
theorem item_of_classItem (hfirst : first = false → g.kind ≠ .plain ']' ∧ g.kind ≠ .plain '-')
    (h : classItem opened g rest = .ok (r, after)) :
    ∃ ls, Item first ls r ∧ g.kind :: kinds rest = ls ++ kinds after := by
  unfold classItem at h
  obtain ⟨lo, hlo, h⟩ := Except.bind_eq_ok.1 h
  have hlo := Glyph.char_eq_ok.1 hlo
  split at h
  · cases h
    exact ⟨[g.kind], .single hlo hfirst, rfl⟩
  · next dash tail =>
    split at h
    · next hdash =>
      split at h
      · cases h
      · next bound after' =>
        split at h
        · cases h
        · next hbound =>
          obtain ⟨hi, hhi, h⟩ := Except.bind_eq_ok.1 h
          split at h
          · cases h
          · next hle =>
            cases h
            refine ⟨_, .range hlo hfirst (Glyph.char_eq_ok.1 hhi) (fun hk => ?_)
              (Char.not_lt.1 hle), ?_⟩
            · exact hbound (Glyph.is_iff.2 hk)
            · rw [kinds_cons, kinds_cons, Glyph.is_iff.1 hdash]
              rfl
    · cases h
      exact ⟨[g.kind], .single hlo hfirst, rfl⟩

theorem classItem_of_item (opened : Nat) (h : Item first ls r)
    (hks : g.kind :: kinds rest = ls ++ ks) (hdash : ks.head? ≠ some (.plain '-')) :
    ∃ after, classItem opened g rest = .ok (r, after) ∧ kinds after = ks := by
  cases h with
  | single hk _ =>
    -- no dash follows, which would begin a range
    obtain ⟨rfl, hrest⟩ := List.cons.inj hks
    have hrest : kinds rest = ks := hrest
    refine ⟨rest, ?_, hrest⟩
    rw [classItem, Glyph.char_eq_ok.2 hk]
    cases rest with
    | nil => rfl
    | cons dash tail =>
      have hno : dash.is '-' = false := by
        apply Glyph.is_eq_false_iff.2
        intro hd
        rw [← hrest, kinds_cons, hd] at hdash
        exact hdash rfl
      show (if dash.is '-' = true then _ else _) = _
      rw [hno]
      rfl
  | range hk _ hl hbound hle =>
    obtain ⟨rfl, hrest⟩ := List.cons.inj hks
    obtain ⟨dash, tail, rfl, hd, htail⟩ := kinds_eq_cons.1 hrest
    obtain ⟨bound, after, rfl, rfl, hafter⟩ := kinds_eq_cons.1 htail
    have hno : bound.is ']' = false := Glyph.is_eq_false_iff.2 hbound
    refine ⟨after, ?_, hafter⟩
    rw [classItem, Glyph.char_eq_ok.2 hk]
    show (if dash.is '-' = true then _ else _) = _
    rw [if_pos (Glyph.is_iff.2 hd)]
    simp only [hno, Glyph.char_eq_ok.2 hl]
    show (if _ < _ then _ else _) = _
    rw [if_neg (Char.not_lt.2 hle)]
    rfl

/-- Where a class neither ends nor breaks off, an item may begin. -/
theorem kind_ne_of_goes_on (hclose : ¬(!first && g.is ']') = true)
    (hdash : ¬(!first && g.is '-') = true) :
    first = false → g.kind ≠ .plain ']' ∧ g.kind ≠ .plain '-' := by
  rintro rfl
  refine ⟨fun hk => hclose ?_, fun hk => hdash ?_⟩
  · rw [Glyph.is_iff.2 hk]
    rfl
  · rw [Glyph.is_iff.2 hk]
    rfl

/-- What is read of a class after its opening. It is empty only if the class has begun before. -/
theorem items_of_classItems (h : classItems opened first ranges glyphs = .ok (rs, stop, after)) :
    ∃ ls rs', rs = ranges ++ rs' ∧ kinds glyphs = ls ++ .plain ']' :: kinds after ∧
      (Items first ls rs' ∨ first = false ∧ ls = [] ∧ rs' = []) := by
  fun_induction classItems opened first ranges glyphs with
  | case1 => cases h
  | case2 first ranges g rest hclose => -- the closing bracket
    cases h
    obtain ⟨hfirst, hg⟩ := Bool.and_eq_true_iff.1 hclose
    refine ⟨[], [], (List.append_nil _).symm, ?_, .inr ⟨by simpa using hfirst, rfl, rfl⟩⟩
    rw [kinds_cons, Glyph.is_iff.1 hg]
    rfl
  | case3 => -- a dash that begins no range
    cases h
  | case4 => -- no item
    cases h
  | case5 first ranges g rest hclose hdash item hitem _ ih =>
    obtain ⟨ls, hls, hks⟩ := item_of_classItem (kind_ne_of_goes_on hclose hdash) hitem
    obtain ⟨ms, rs', rfl, hms, hitems⟩ := ih h
    refine ⟨ls ++ ms, item.1 :: rs', by simp, ?_, .inl ?_⟩
    · rw [kinds_cons, hks, hms, List.append_assoc]
    · rcases hitems with hitems | ⟨-, rfl, rfl⟩
      · exact .cons hls hitems
      · rw [List.append_nil]
        exact .one hls

/-- From its first item on a class is read up to its closing bracket. -/
theorem items_of_classItems_first (h : classItems opened true [] glyphs = .ok (rs, stop, after)) :
    ∃ ls, Items true ls rs ∧ kinds glyphs = ls ++ .plain ']' :: kinds after := by
  obtain ⟨ls, rs', rfl, hks, hitems⟩ := items_of_classItems h
  rcases hitems with hitems | ⟨hfirst, -, -⟩
  · exact ⟨ls, hitems, hks⟩
  · cases hfirst

/-- An item is read, and the class goes on. -/
theorem classItems_of_item (opened : Nat) (ranges : List CharRange) (h : Item first ls r)
    (hks : kinds glyphs = ls ++ ks) (hdash : ks.head? ≠ some (.plain '-')) :
    ∃ after, kinds after = ks ∧ classItems opened first ranges glyphs =
      classItems opened false (ranges ++ [r]) after := by
  obtain ⟨k, ls', hls, hk⟩ := h.exists_head
  obtain ⟨g, rest, rfl, rfl, -⟩ := kinds_eq_cons.1 (hks.trans (by rw [hls]; rfl))
  obtain ⟨after, hitem, hafter⟩ := classItem_of_item opened h hks hdash
  refine ⟨after, hafter, ?_⟩
  have hclose : (!first && g.is ']') = false := by
    cases first with
    | true => rfl
    | false => exact Glyph.is_eq_false_iff.2 (hk rfl).1
  have hfirst : (!first && g.is '-') = false := by
    cases first with
    | true => rfl
    | false => exact Glyph.is_eq_false_iff.2 (hk rfl).2
  rw [classItems, hclose, hfirst]
  simp only [Bool.false_eq_true, if_false]
  split
  · next herr =>
    rw [hitem] at herr
    cases herr
  · next item hok =>
    rw [hitem] at hok
    cases hok
    rfl

theorem classItems_of_items (opened : Nat) (ranges : List CharRange) (h : Items first ls rs)
    (hks : kinds glyphs = ls ++ .plain ']' :: ks) :
    ∃ stop after, classItems opened first ranges glyphs = .ok (ranges ++ rs, stop, after) ∧
      kinds after = ks := by
  induction h generalizing ranges glyphs with
  | one hitem =>
    obtain ⟨after, hafter, heq⟩ := classItems_of_item opened ranges hitem hks nofun
    obtain ⟨g, rest, rfl, hg, hrest⟩ := kinds_eq_cons.1 hafter
    refine ⟨g.stop, rest, ?_, hrest⟩
    rw [heq, classItems, Glyph.is_iff.2 hg]
    rfl
  | cons hitem hitems ih =>
    rw [List.append_assoc] at hks
    obtain ⟨k, ls', rfl, hk⟩ := hitems.exists_head
    obtain ⟨after, hafter, heq⟩ := classItems_of_item opened ranges hitem hks fun hhead =>
      (hk rfl).2 (Option.some.inj hhead)
    obtain ⟨stop, after', hok, hafter'⟩ := ih (ranges ++ [_]) hafter
    exact ⟨stop, after', by rw [heq, hok, List.append_assoc]; rfl, hafter'⟩

theorem classAfter_cons (opened : Nat) (g : Glyph) (rest : List Glyph) :
    classAfter opened (g :: rest) =
      if g.is '^' then (classItems opened true [] rest).map fun r => (.set r.1 true, r.2)
      else (classItems opened true [] (g :: rest)).map fun r => (.set r.1 false, r.2) := by
  show (classItems opened true [] (if g.is '^' = true then rest else g :: rest)).map
    (fun r => (Instr.set r.1 (g.is '^'), r.2)) = _
  cases g.is '^' <;> rfl

theorem map_eq_ok {ε α β : Type} {x : Except ε α} {f : α → β} {b : β} :
    x.map f = .ok b ↔ ∃ a, x = .ok a ∧ f a = b := by
  cases x with
  | error e => simp [Except.map]
  | ok a => simp [Except.map]

theorem class_of_classAfter {instr : Instr}
    (h : classAfter opened glyphs = .ok (instr, stop, after)) :
    ∃ ls rs inverted, instr = .set rs inverted ∧ Class ls rs inverted ∧
      .plain '[' :: kinds glyphs = ls ++ kinds after := by
  cases glyphs with
  | nil =>
    obtain ⟨a, ha, -⟩ := map_eq_ok.1 h
    have ha : classItems opened true [] [] = .ok a := ha
    rw [classItems] at ha
    cases ha
  | cons g rest =>
    rw [classAfter_cons] at h
    split at h
    · next hg =>
      obtain ⟨⟨found, stop', after'⟩, ha, heq⟩ := map_eq_ok.1 h
      cases heq
      obtain ⟨ls, hitems, hks⟩ := items_of_classItems_first ha
      refine ⟨_, found, true, rfl, .outside hitems, ?_⟩
      rw [kinds_cons, Glyph.is_iff.1 hg, hks]
      simp
    · next hg =>
      obtain ⟨⟨found, stop', after'⟩, ha, heq⟩ := map_eq_ok.1 h
      cases heq
      obtain ⟨ls, hitems, hks⟩ := items_of_classItems_first ha
      refine ⟨_, found, false, rfl, .inside (fun hhead => hg ?_) hitems, ?_⟩
      · obtain ⟨k, ls', rfl, -⟩ := hitems.exists_head
        rw [Glyph.is_iff, (List.cons.inj hks).1]
        exact Option.some.inj hhead
      · rw [hks]
        simp

theorem classAfter_of_class (opened : Nat) (h : Class ls rs inverted)
    (hks : .plain '[' :: kinds glyphs = ls ++ ks) :
    ∃ stop after, classAfter opened glyphs = .ok (.set rs inverted, stop, after) ∧
      kinds after = ks := by
  cases h with
  | @inside ms _ hhead hitems =>
    have hglyphs : kinds glyphs = ms ++ .plain ']' :: ks := by simpa using hks
    obtain ⟨stop, after, hok, hafter⟩ := classItems_of_items opened [] hitems hglyphs
    obtain ⟨k, ls', rfl, -⟩ := hitems.exists_head
    obtain ⟨g, rest, rfl, rfl, -⟩ := kinds_eq_cons.1 hglyphs
    have hg : ¬g.is '^' = true := fun hg => hhead (by rw [← Glyph.is_iff.1 hg]; rfl)
    refine ⟨stop, after, ?_, hafter⟩
    rw [classAfter_cons, if_neg hg, hok]
    rfl
  | @outside ms _ hitems =>
    have hglyphs : kinds glyphs = .plain '^' :: (ms ++ .plain ']' :: ks) := by simpa using hks
    obtain ⟨g, rest, rfl, hg, hrest⟩ := kinds_eq_cons.1 hglyphs
    obtain ⟨stop, after, hok, hafter⟩ := classItems_of_items opened [] hitems hrest
    refine ⟨stop, after, ?_, hafter⟩
    rw [classAfter_cons, if_pos (Glyph.is_iff.2 hg), hok]
    rfl

/-! ## Bounds -/

/-- A decimal digit. -/
def IsDigit (d : Char) : Prop :=
  '0' ≤ d ∧ d ≤ '9'

theorem digit?_eq_some : g.digit? = some n ↔
    ∃ d, g.kind = .plain d ∧ IsDigit d ∧ n = d.toNat - '0'.toNat := by
  unfold Glyph.digit?
  split
  · next d hk =>
    rw [Option.ite_none_right_eq_some, Option.some.injEq]
    constructor
    · intro h
      exact ⟨d, hk, h.1, h.2.symm⟩
    · intro h
      obtain ⟨e, he, hdigit, hn⟩ := h
      rw [hk] at he
      cases he
      exact ⟨hdigit, hn.symm⟩
  · next hk =>
    refine iff_of_false nofun fun h => ?_
    obtain ⟨d, hd, -⟩ := h
    exact hk d hd

theorem digit?_eq_none : g.digit? = none ↔ ∀ d, g.kind = .plain d → ¬IsDigit d := by
  rw [Option.eq_none_iff_forall_ne_some]
  simp only [ne_eq, digit?_eq_some, not_exists, not_and]
  constructor
  · intro h d hk hd
    exact h _ d hk hd rfl
  · intro h n d hk hd
    exact absurd hd (h d hk)

theorem le_decimal (value : Nat) (ds : List Char) : value ≤ decimal value ds := by
  induction ds generalizing value with
  | nil => exact Nat.le_refl _
  | cons d ds ih =>
    have := ih (value * 10 + (d.toNat - '0'.toNat))
    show value ≤ decimal (value * 10 + (d.toNat - '0'.toNat)) ds
    omega

/-- What is read as digits is a number that stays within the bound. -/
theorem digits_of_digitsAfter (h : digitsAfter position value glyphs = .ok (n, stop, after)) :
    ∃ ds : List Char, (∀ d ∈ ds, IsDigit d) ∧ kinds glyphs = ds.map .plain ++ kinds after ∧
      n = decimal value ds ∧ (value ≤ maxBound → n ≤ maxBound) ∧
      (startsNumber glyphs = true → ds ≠ []) := by
  fun_induction digitsAfter position value glyphs with
  | case1 =>
    cases h
    refine ⟨[], List.forall_mem_nil _, rfl, rfl, id, fun hstart => ?_⟩
    cases hstart
  | case2 _ _ g rest hdigit => -- no digit
    cases h
    refine ⟨[], List.forall_mem_nil _, rfl, rfl, id, fun hstart => ?_⟩
    rw [startsNumber, hdigit] at hstart
    cases hstart
  | case3 => -- too great
    cases h
  | case4 _ value g rest d hdigit value' hle ih =>
    obtain ⟨c, hk, hc, hd⟩ := digit?_eq_some.1 hdigit
    obtain ⟨ds, hds, hks, hn, hmax, -⟩ := ih h
    refine ⟨c :: ds, List.forall_mem_cons.2 ⟨hc, hds⟩, ?_, ?_, fun _ => hmax (not_lt.1 hle),
      fun _ => List.cons_ne_nil _ _⟩
    · rw [kinds_cons, hk, hks]
      rfl
    · rw [hn]
      show decimal value' ds = decimal (value * 10 + (c.toNat - '0'.toNat)) ds
      rw [← hd]

theorem digitsAfter_of_digits (position : Nat) {ds : List Char} (hds : ∀ d ∈ ds, IsDigit d)
    (hks : kinds glyphs = ds.map .plain ++ ks)
    (hhead : ∀ d, ks.head? = some (.plain d) → ¬IsDigit d) (hlt : decimal value ds < 2 ^ 32) :
    ∃ stop after, digitsAfter position value glyphs = .ok (decimal value ds, stop, after) ∧
      kinds after = ks := by
  induction ds generalizing position value glyphs with
  | nil =>
    have hks : kinds glyphs = ks := hks
    refine ⟨position, glyphs, ?_, hks⟩
    cases glyphs with
    | nil => rfl
    | cons g rest =>
      have hnone : g.digit? = none := by
        rw [digit?_eq_none]
        intro d hk
        apply hhead
        rw [← hks, kinds_cons, hk]
        rfl
      rw [digitsAfter, hnone]
      rfl
  | cons d ds ih =>
    obtain ⟨g, rest, rfl, hk, hrest⟩ := kinds_eq_cons.1 hks
    obtain ⟨hd, hds⟩ := List.forall_mem_cons.1 hds
    have hsome : g.digit? = some (d.toNat - '0'.toNat) := digit?_eq_some.2 ⟨d, hk, hd, rfl⟩
    -- the value only grows, so the bound is not passed on the way
    have hvalue := le_decimal (value * 10 + (d.toNat - '0'.toNat)) ds
    have hlt : decimal (value * 10 + (d.toNat - '0'.toNat)) ds < 2 ^ 32 := hlt
    obtain ⟨stop, after, hok, hafter⟩ := ih g.stop hds hrest hlt
    refine ⟨stop, after, ?_, hafter⟩
    rw [digitsAfter, hsome]
    show (if maxBound < value * 10 + (d.toNat - '0'.toNat) then _ else _) = _
    rw [if_neg (by rw [maxBound]; omega), hok]
    rfl

theorem numeral_of_number (h : number position glyphs = .ok (n, stop, after)) :
    ∃ ls, Numeral ls n ∧ kinds glyphs = ls ++ kinds after := by
  unfold number at h
  split at h
  · next hstart =>
    obtain ⟨ds, hds, hks, rfl, hmax, hne⟩ := digits_of_digitsAfter h
    have hlt := hmax (Nat.zero_le _)
    rw [maxBound] at hlt
    exact ⟨_, .intro (hne hstart) hds (by omega), hks⟩
  · cases h

theorem startsNumber_of_numeral (h : Numeral ls n) (hks : kinds glyphs = ls ++ ks) :
    startsNumber glyphs = true := by
  cases h with
  | @intro ds hne hds =>
    cases ds with
    | nil => exact absurd rfl hne
    | cons d ds =>
      obtain ⟨g, rest, rfl, hk, -⟩ := kinds_eq_cons.1 hks
      rw [startsNumber, digit?_eq_some.2 ⟨d, hk, hds d List.mem_cons_self, rfl⟩]
      rfl

theorem number_of_numeral (position : Nat) (h : Numeral ls n) (hks : kinds glyphs = ls ++ ks)
    (hhead : ∀ d, ks.head? = some (.plain d) → ¬IsDigit d) :
    ∃ stop after, number position glyphs = .ok (n, stop, after) ∧ kinds after = ks := by
  rw [number, if_pos (startsNumber_of_numeral h hks)]
  cases h with
  | intro _ hds hlt => exact digitsAfter_of_digits position hds hks hhead hlt

theorem bound_of_upperBound {max : Option Nat}
    (h : upperBound m position glyphs = .ok (max, stop, after)) :
    (max = some m ∧ kinds glyphs = kinds after) ∨
      (max = none ∧ kinds glyphs = .plain ',' :: kinds after) ∨
      ∃ ls n, max = some n ∧ Numeral ls n ∧ kinds glyphs = .plain ',' :: (ls ++ kinds after) := by
  unfold upperBound at h
  split at h
  · cases h
    exact .inl ⟨rfl, rfl⟩
  · next g rest =>
    split at h
    · next hcomma =>
      rw [kinds_cons, Glyph.is_iff.1 hcomma]
      split at h
      · obtain ⟨⟨n, stop', after'⟩, hn, heq⟩ := map_eq_ok.1 h
        cases heq
        obtain ⟨ls, hls, hks⟩ := numeral_of_number hn
        exact .inr (.inr ⟨ls, n, rfl, hls, by rw [hks]⟩)
      · cases h
        exact .inr (.inl ⟨rfl, rfl⟩)
    · cases h
      exact .inl ⟨rfl, rfl⟩

theorem bounds_of_boundsAfter {min : Nat} {max : Option Nat}
    (h : boundsAfter opened position glyphs = .ok ((min, max), stop, after)) :
    ∃ ls, Bounds ls min max ∧ .plain '\x7b' :: kinds glyphs = ls ++ kinds after := by
  unfold boundsAfter at h
  obtain ⟨⟨m, stop₁, after₁⟩, hm, h⟩ := Except.bind_eq_ok.1 h
  obtain ⟨⟨bound, stop₂, after₂⟩, hbound, h⟩ := Except.bind_eq_ok.1 h
  obtain ⟨ls, hls, hks⟩ := numeral_of_number hm
  simp only at h
  split at h
  · cases h
  · next g rest =>
    split at h
    · cases h
    · next hclose =>
      split at h
      · cases h
      · next horder =>
        cases h
        have hg : g.kind = .plain '\x7d' := by simpa [Glyph.is_iff] using hclose
        have horder : boundsInOrder min max = true := by simpa using horder
        rcases bound_of_upperBound hbound with ⟨rfl, hafter⟩ | ⟨rfl, hafter⟩ |
          ⟨ms, n, rfl, hms, hafter⟩
        · have hpos : 0 < min := by simpa [boundsInOrder] using horder
          exact ⟨_, .exact hls hpos, by simp [hks, hafter, hg]⟩
        · exact ⟨_, .atLeast hls, by simp [hks, hafter, hg]⟩
        · obtain ⟨hpos, hle⟩ : 0 < n ∧ min ≤ n := by simpa [boundsInOrder] using horder
          exact ⟨_, .between hls hms hpos hle, by simp [hks, hafter, hg]⟩

/-- After the numbers only the closing brace is left. -/
theorem boundsAfter_of_parts {min : Nat} {max : Option Nat} {after₁ after₂ : List Glyph}
    {stop₁ stop₂ : Nat} (hmin : number position glyphs = .ok (min, stop₁, after₁))
    (hmax : upperBound min stop₁ after₁ = .ok (max, stop₂, after₂))
    (horder : boundsInOrder min max = true) (hclose : kinds after₂ = .plain '\x7d' :: ks) :
    ∃ stop after, boundsAfter opened position glyphs = .ok ((min, max), stop, after) ∧
      kinds after = ks := by
  obtain ⟨g, rest, rfl, hg, hrest⟩ := kinds_eq_cons.1 hclose
  refine ⟨g.stop, rest, ?_, hrest⟩
  refine Except.bind_eq_ok.2 ⟨_, hmin, Except.bind_eq_ok.2 ⟨_, hmax, ?_⟩⟩
  show (if (!g.is '\x7d') = true then _ else _) = _
  rw [Glyph.is_iff.2 hg]
  show (if (!boundsInOrder min max) = true then _ else _) = _
  rw [horder]
  rfl

theorem upperBound_of_brace (m position : Nat) (h : kinds glyphs = .plain '\x7d' :: ks) :
    upperBound m position glyphs = .ok (some m, position, glyphs) := by
  obtain ⟨g, rest, rfl, hg, -⟩ := kinds_eq_cons.1 h
  have hcomma : g.is ',' = false := by
    rw [Glyph.is_eq_false_iff, hg]
    decide
  rw [upperBound, hcomma]
  rfl

theorem upperBound_of_comma (m position : Nat)
    (h : kinds glyphs = .plain ',' :: .plain '\x7d' :: ks) :
    ∃ stop after, upperBound m position glyphs = .ok (none, stop, after) ∧
      kinds after = .plain '\x7d' :: ks := by
  obtain ⟨g, rest, rfl, hg, hrest⟩ := kinds_eq_cons.1 h
  refine ⟨g.stop, rest, ?_, hrest⟩
  have hstart : startsNumber rest = false := by
    obtain ⟨b, rest', rfl, hb, -⟩ := kinds_eq_cons.1 hrest
    have hnone : b.digit? = none := by
      rw [digit?_eq_none]
      intro d hd
      rw [hb] at hd
      cases hd
      simp [IsDigit]
    rw [startsNumber, hnone]
    rfl
  rw [upperBound, Glyph.is_iff.2 hg, hstart]
  rfl

theorem upperBound_of_numeral (m position : Nat) (hn : Numeral ls n)
    (h : kinds glyphs = .plain ',' :: (ls ++ ks))
    (hhead : ∀ d, ks.head? = some (.plain d) → ¬IsDigit d) :
    ∃ stop after, upperBound m position glyphs = .ok (some n, stop, after) ∧ kinds after = ks := by
  obtain ⟨g, rest, rfl, hg, hrest⟩ := kinds_eq_cons.1 h
  obtain ⟨stop, after, hok, hafter⟩ := number_of_numeral g.stop hn hrest hhead
  refine ⟨stop, after, ?_, hafter⟩
  rw [upperBound, Glyph.is_iff.2 hg, startsNumber_of_numeral hn hrest, hok]
  rfl

theorem boundsAfter_of_bounds (opened position : Nat) {min : Nat} {max : Option Nat}
    (h : Bounds ls min max) (hks : .plain '\x7b' :: kinds glyphs = ls ++ ks) :
    ∃ stop after, boundsAfter opened position glyphs = .ok ((min, max), stop, after) ∧
      kinds after = ks := by
  -- a number ends before a comma and before a brace
  have hbrace : ∀ d, (Glyph.Kind.plain '\x7d' :: ks).head? = some (.plain d) → ¬IsDigit d := by
    intro d hd
    cases hd
    simp [IsDigit]
  have hcomma : ∀ ms d, (Glyph.Kind.plain ',' :: ms).head? = some (.plain d) → ¬IsDigit d := by
    intro ms d hd
    cases hd
    simp [IsDigit]
  cases h with
  | @exact ms _ hm hpos =>
    have hpos : 0 < min := hpos
    have hglyphs : kinds glyphs = ms ++ .plain '\x7d' :: ks := by simpa using hks
    obtain ⟨stop₁, after₁, hmin, hafter₁⟩ := number_of_numeral position hm hglyphs hbrace
    exact boundsAfter_of_parts hmin (upperBound_of_brace min stop₁ hafter₁)
      (by simpa [boundsInOrder] using hpos) hafter₁
  | @between ms ns _ n hm hn hpos hle =>
    have hpos : 0 < n := hpos
    have hglyphs : kinds glyphs = ms ++ .plain ',' :: (ns ++ .plain '\x7d' :: ks) := by
      simpa using hks
    obtain ⟨stop₁, after₁, hmin, hafter₁⟩ := number_of_numeral position hm hglyphs (hcomma _)
    obtain ⟨stop₂, after₂, hmax, hafter₂⟩ :=
      upperBound_of_numeral min stop₁ hn hafter₁ hbrace
    exact boundsAfter_of_parts hmin hmax (by simpa [boundsInOrder] using ⟨hpos, hle⟩) hafter₂
  | @atLeast ms _ hm =>
    have hglyphs : kinds glyphs = ms ++ .plain ',' :: .plain '\x7d' :: ks := by simpa using hks
    obtain ⟨stop₁, after₁, hmin, hafter₁⟩ := number_of_numeral position hm hglyphs (hcomma _)
    obtain ⟨stop₂, after₂, hmax, hafter₂⟩ := upperBound_of_comma min stop₁ hafter₁
    exact boundsAfter_of_parts hmin hmax rfl hafter₂

end Lexeme

end Pattern

end LongestMatch
