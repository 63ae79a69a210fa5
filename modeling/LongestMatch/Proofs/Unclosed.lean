import LongestMatch.Proofs.Cursor

/-!
# Why a class is rejected

A class in brackets is rejected for one of three reasons (`Lexeme.ClassFault`): it has a malformed
escape, which begins with a backslash, it has a range that is none, or the pattern ends first. In
the last case the fault is at the opening bracket, and the class is unclosed in the full sense: no
part of the text from there on is a class, and yet it only has to go on to become one
(`Lexeme.unclosed_of_classAfter`).
-/

namespace LongestMatch

namespace Pattern

open Descent (glyphsAt)

/-! ## Texts that are classes -/

/-- The text is a class in brackets. -/
def IsClass (text : List Char) : Prop :=
  ∃ ks ranges inverted, Spells text ks ∧ Class ks ranges inverted

/-- The text begins with no class, but some longer one is a class. -/
def Unclosed (text : List Char) : Prop :=
  (∀ front, front <+: text → ¬IsClass front) ∧ ∃ more, IsClass (text ++ more)

theorem Spells.append {text more : List Char} {ks ls : List Glyph.Kind} (h : Spells text ks)
    (hmore : Spells more ls) : Spells (text ++ more) (ks ++ ls) := by
  induction h with
  | nil => exact hmore
  | plain hc _ ih => exact .plain hc ih
  | hex hc _ ih => exact .hex hc ih
  | wide hc _ ih => exact .wide hc ih
  | escaped hx hu _ ih => exact .escaped hx hu ih

/-! ## Where glyphs are -/

/-- A glyph begins at a character of the pattern, and a broken one is an escape. -/
structure Glyph.Sits (pattern : List Char) (g : Glyph) : Prop where
  start_lt : g.start < pattern.length
  escape_of_broken : ∀ fault, g.kind = .broken fault →
    (fault = .escapeAtEnd ∨ fault = .badHexEscape) ∧ pattern[g.start]? = some '\\'

theorem Glyph.sits_of_sound {pattern : List Char} {position stop : Nat} {c : Char}
    {kind : Glyph.Kind} (h : pattern[position]? = some c) (hkind : ∀ fault, kind ≠ .broken fault) :
    Glyph.Sits pattern ⟨kind, position, stop⟩ :=
  ⟨(List.getElem?_eq_some_iff.1 h).1, fun fault hfault => absurd hfault (hkind fault)⟩

theorem Glyph.sits_of_broken {pattern : List Char} {position stop : Nat} {fault : Fault}
    (h : pattern[position]? = some '\\') (hfault : fault = .escapeAtEnd ∨ fault = .badHexEscape) :
    Glyph.Sits pattern ⟨.broken fault, position, stop⟩ := by
  refine ⟨(List.getElem?_eq_some_iff.1 h).1, fun fault' heq => ?_⟩
  cases heq
  exact ⟨hfault, h⟩

theorem drop_add_of_append {pattern rest : List Char} {position : Nat} (front : List Char)
    (h : pattern.drop position = front ++ rest) :
    pattern.drop (position + front.length) = rest := by
  rw [← List.drop_drop, h, List.drop_left]

theorem sits_ofChars {pattern text : List Char} {position : Nat}
    (h : pattern.drop position = text) : ∀ g ∈ Glyph.ofChars position text, g.Sits pattern := by
  have hhead : ∀ {position : Nat} {c : Char} {rest : List Char},
      pattern.drop position = c :: rest → pattern[position]? = some c := by
    intro position c rest h
    have hget : (pattern.drop position)[0]? = pattern[position]? := List.getElem?_drop
    rw [h] at hget
    exact hget.symm
  -- a glyph that ends the row, and one that others follow
  have hends : ∀ {position stop : Nat} {fault : Fault} {rest : List Char},
      pattern.drop position = '\\' :: rest → fault = .escapeAtEnd ∨ fault = .badHexEscape →
        ∀ g ∈ [(⟨.broken fault, position, stop⟩ : Glyph)], g.Sits pattern :=
    fun h hfault => List.forall_mem_singleton.2 (Glyph.sits_of_broken (hhead h) hfault)
  fun_induction Glyph.ofChars position text with
  | case1 => exact List.forall_mem_nil _
  | case2 => exact hends h (.inl rfl)
  | case3 position a b rest c _ ih =>
    refine List.forall_mem_cons.2 ⟨Glyph.sits_of_sound (hhead h) (fun _ hk => by cases hk), ih ?_⟩
    exact drop_add_of_append ['\\', 'x', a, b] h
  | case4 => exact hends h (.inr rfl)
  | case5 => exact hends h (.inr rfl)
  | case6 position a b c d rest e _ ih =>
    refine List.forall_mem_cons.2 ⟨Glyph.sits_of_sound (hhead h) (fun _ hk => by cases hk), ih ?_⟩
    exact drop_add_of_append ['\\', 'u', a, b, c, d] h
  | case7 => exact hends h (.inr rfl)
  | case8 => exact hends h (.inr rfl)
  | case9 position c rest _ _ _ _ ih =>
    refine List.forall_mem_cons.2 ⟨Glyph.sits_of_sound (hhead h) (fun _ hk => by cases hk), ih ?_⟩
    exact drop_add_of_append ['\\', c] h
  | case10 position c rest _ _ _ _ _ _ ih =>
    refine List.forall_mem_cons.2 ⟨Glyph.sits_of_sound (hhead h) (fun _ hk => by cases hk), ih ?_⟩
    exact drop_add_of_append [c] h

/-! ## Faults of a class -/

theorem Item.sound {first : Bool} {ks : List Glyph.Kind} {r : CharRange} (h : Item first ks r) :
    ∀ fault, .broken fault ∉ ks := by
  have hstands : ∀ {k : Glyph.Kind} {c : Char}, Stands k c → ∀ fault, .broken fault ≠ k := by
    rintro k c hk fault rfl
    cases hk
  intro fault hmem
  cases h with
  | single hk _ => exact hstands hk fault (List.mem_singleton.1 hmem)
  | range hk _ hl _ _ =>
    simp only [List.mem_cons, List.not_mem_nil, or_false, reduceCtorEq, false_or] at hmem
    rcases hmem with heq | heq
    · exact hstands hk fault heq
    · exact hstands hl fault heq

namespace Lexeme

variable {pattern : List Char} {opened position stop : Nat} {first : Bool} {g : Glyph}
  {rest glyphs : List Glyph} {ks : List Glyph.Kind} {ranges : List CharRange} {fault : Fault}

/-- Symbols of a class that can go on to its end. -/
def Completable (first : Bool) (ks : List Glyph.Kind) : Prop :=
  ∃ (more : List Char) (ls : List Glyph.Kind) (rs : List CharRange), '\\' ∉ more ∧
    ks ++ more.map .plain = ls ++ [.plain ']'] ∧ Items first ls rs

/-- Why the items of a class are not read, and where the fault is. -/
inductive ClassFault (pattern : List Char) (opened : Nat) (first : Bool) (ks : List Glyph.Kind) :
    Fault → Nat → Prop where
  | unclosed (hsound : ∀ fault, .broken fault ∉ ks) (hmore : Completable first ks) :
      ClassFault pattern opened first ks .unexpectedEnd opened
  | escape {fault : Fault} {position : Nat} (hfault : fault = .escapeAtEnd ∨ fault = .badHexEscape)
      (hposition : pattern[position]? = some '\\') :
      ClassFault pattern opened first ks fault position
  | range {position : Nat} (hposition : position < pattern.length) :
      ClassFault pattern opened first ks .badRange position

theorem completable_nil (first : Bool) : Completable first [] := by
  refine ⟨['a', ']'], [.plain 'a'], _, by decide, rfl, .one (.single (.plain 'a') fun _ => ?_)⟩
  exact ⟨by decide, by decide⟩

theorem Completable.cons {ls : List Glyph.Kind} {r : CharRange} (hitem : Item first ls r)
    (h : Completable false ks) : Completable first (ls ++ ks) := by
  obtain ⟨more, ms, rs, hmore, hks, hitems⟩ := h
  refine ⟨more, ls ++ ms, r :: rs, hmore, ?_, .cons hitem hitems⟩
  rw [List.append_assoc, hks, List.append_assoc]

theorem char_le_last (c : Char) : c ≤ Char.ofNat maxCode := by
  rw [Char.le_iff_toNat]
  exact (Char.toNat_le_maxCode c).trans_eq (by decide)

/-- A range that ends with its dash can still go on to the last character there is. -/
theorem completable_dash {k : Glyph.Kind} {lo : Char} (hk : Stands k lo)
    (hfirst : first = false → k ≠ .plain ']' ∧ k ≠ .plain '-') :
    Completable first [k, .plain '-'] := by
  refine ⟨[Char.ofNat maxCode, ']'], _, _, by decide, rfl, .one (.range hk hfirst
    (.plain (Char.ofNat maxCode)) (by decide) (char_le_last lo))⟩

theorem classFault_of_char (hg : g.Sits pattern) (h : g.char = .error (fault, position)) :
    ClassFault pattern opened first ks fault position := by
  unfold Glyph.char at h
  split at h
  · cases h
  · cases h
  · next hk =>
    cases h
    obtain ⟨hfault, hposition⟩ := hg.escape_of_broken _ hk
    exact .escape hfault hposition

theorem classFault_of_classItem (hg : g.Sits pattern) (hrest : ∀ g ∈ rest, g.Sits pattern)
    (hfirst : first = false → g.kind ≠ .plain ']' ∧ g.kind ≠ .plain '-')
    (h : classItem opened g rest = .error (fault, position)) :
    ClassFault pattern opened first (kinds (g :: rest)) fault position := by
  unfold classItem at h
  rcases Except.bind_eq_error.1 h with hlo | ⟨lo, hlo, h⟩
  · exact classFault_of_char hg hlo
  split at h
  · cases h
  · next dash tail =>
    split at h
    · next hdash =>
      split at h
      · -- nothing follows the dash
        cases h
        have hlo := Glyph.char_eq_ok.1 hlo
        rw [kinds_cons, kinds_cons, Glyph.is_iff.1 hdash, kinds_nil]
        refine .unclosed (fun fault hmem => ?_) (completable_dash hlo hfirst)
        simp only [List.mem_cons, List.not_mem_nil, or_false, reduceCtorEq] at hmem
        rw [← hmem] at hlo
        cases hlo
      · next bound after =>
        split at h
        · -- the class ends behind the dash
          cases h
          exact .range hg.start_lt
        · rcases Except.bind_eq_error.1 h with hhi | ⟨hi, -, h⟩
          · exact classFault_of_char (hrest bound (by simp)) hhi
          · split at h
            · -- the bounds are the wrong way round
              cases h
              exact .range hg.start_lt
            · cases h
    · cases h

/-- An item takes glyphs from the front only. -/
theorem mem_of_mem_classItem {item : CharRange × List Glyph}
    (h : classItem opened g rest = .ok item) : ∀ k ∈ item.2, k ∈ rest := by
  unfold classItem at h
  obtain ⟨lo, -, h⟩ := Except.bind_eq_ok.1 h
  split at h
  · cases h
    exact fun k hk => hk
  · next dash tail =>
    split at h
    · split at h
      · cases h
      · next bound after =>
        split at h
        · cases h
        · obtain ⟨hi, -, h⟩ := Except.bind_eq_ok.1 h
          split at h
          · cases h
          · cases h
            exact fun k hk => List.mem_cons_of_mem _ (List.mem_cons_of_mem _ hk)
    · cases h
      exact fun k hk => hk

/-- The items are read up to a fault; what has been read of them does not matter for it. -/
theorem classFault_of_classItems (hglyphs : ∀ g ∈ glyphs, g.Sits pattern)
    (h : classItems opened first ranges glyphs = .error (fault, position)) :
    ClassFault pattern opened first (kinds glyphs) fault position := by
  fun_induction classItems opened first ranges glyphs with
  | case1 =>
    cases h
    exact .unclosed (fun _ hmem => by cases hmem) (completable_nil _)
  | case2 => cases h
  | case3 first ranges g rest _ _ =>
    cases h
    exact .range (hglyphs g List.mem_cons_self).start_lt
  | case4 first ranges g rest hclose hdash fault hitem =>
    cases h
    obtain ⟨hg, hrest⟩ := List.forall_mem_cons.1 hglyphs
    exact classFault_of_classItem hg hrest (kind_ne_of_goes_on hclose hdash) hitem
  | case5 first ranges g rest hclose hdash item hitem _ ih =>
    obtain ⟨hg, hrest⟩ := List.forall_mem_cons.1 hglyphs
    obtain ⟨ls, hls, hks⟩ := item_of_classItem (kind_ne_of_goes_on hclose hdash) hitem
    have hfault := ih (fun k hk => hrest k (mem_of_mem_classItem hitem k hk)) h
    rw [kinds_cons, hks]
    cases hfault with
    | unclosed hsound hmore =>
      refine .unclosed (fun fault hmem => ?_) (hmore.cons hls)
      rcases List.mem_append.1 hmem with hmem | hmem
      · exact hls.sound fault hmem
      · exact hsound fault hmem
    | escape hfault hposition => exact .escape hfault hposition
    | range hposition => exact .range hposition

/-- The symbols of a class after its opening bracket: a caret may stand before the items, and
nowhere else at their front. -/
inductive Body : List Glyph.Kind → List Glyph.Kind → Prop where
  | inside {ks : List Glyph.Kind} : ks.head? ≠ some (.plain '^') → Body ks ks
  | outside {ks : List Glyph.Kind} : Body (.plain '^' :: ks) ks

theorem Body.sound {body : List Glyph.Kind} (h : Body body ks) (hks : ∀ fault, .broken fault ∉ ks) :
    ∀ fault, .broken fault ∉ body := by
  intro fault hmem
  cases h with
  | inside _ => exact hks fault hmem
  | outside => exact hks fault ((List.mem_cons.1 hmem).resolve_left fun heq => by cases heq)

theorem classFault_of_classAfter (hglyphs : ∀ g ∈ glyphs, g.Sits pattern)
    (h : classAfter opened glyphs = .error (fault, position)) :
    ∃ ks, Body (kinds glyphs) ks ∧ ClassFault pattern opened true ks fault position := by
  have hitems : ∀ {gs : List Glyph} {inverted : Bool}, (∀ g ∈ gs, g.Sits pattern) →
      (classItems opened true [] gs).map (fun r => (Instr.set r.1 inverted, r.2)) =
        .error (fault, position) → ClassFault pattern opened true (kinds gs) fault position := by
    intro gs inverted hgs h
    cases hread : classItems opened true [] gs with
    | ok r =>
      rw [hread] at h
      cases h
    | error e =>
      rw [hread] at h
      cases h
      exact classFault_of_classItems hgs hread
  cases glyphs with
  | nil => exact ⟨[], .inside (by decide), hitems hglyphs h⟩
  | cons g rest =>
    rw [classAfter_cons] at h
    split at h
    · next hg =>
      refine ⟨kinds rest, ?_, hitems (List.forall_mem_cons.1 hglyphs).2 h⟩
      rw [kinds_cons, Glyph.is_iff.1 hg]
      exact .outside
    · next hg =>
      refine ⟨kinds (g :: rest), .inside fun hhead => hg ?_, hitems hglyphs h⟩
      exact Glyph.is_iff.2 (Option.some.inj hhead)

/-- A class goes on to its end if its items do. -/
theorem exists_isClass_of_completable {text : List Char} {body : List Glyph.Kind}
    (htext : Spells text body) (hbody : Body body ks) (h : Completable true ks) :
    ∃ more, IsClass ('[' :: text ++ more) := by
  have hclass : ∀ (more : List Char) {ls : List Glyph.Kind} {rs : List CharRange} {inverted : Bool},
      '\\' ∉ more → body ++ more.map .plain = ls → Class (.plain '[' :: ls) rs inverted →
        ∃ more, IsClass ('[' :: text ++ more) := by
    rintro more ls rs inverted hmore rfl hclass
    exact ⟨more, _, rs, inverted, .plain (by decide) (htext.append (spells_plain hmore)), hclass⟩
  cases hbody with
  | outside =>
    obtain ⟨more, ls, rs, hmore, hks, hitems⟩ := h
    refine hclass more hmore ?_ (.outside hitems)
    rw [List.cons_append, hks]
  | inside hhead =>
    cases ks with
    | nil =>
      have hitems : Items true [.plain 'a'] [CharRange.single 'a'] :=
        .one (.single (.plain 'a') fun hfirst => by cases hfirst)
      exact hclass ['a', ']'] (by decide) rfl (.inside (by decide) hitems)
    | cons k ks =>
      obtain ⟨more, ls, rs, hmore, hks, hitems⟩ := h
      obtain ⟨l, ls', rfl, -⟩ := hitems.exists_head
      refine hclass more hmore hks (.inside ?_ hitems)
      obtain ⟨rfl, -⟩ := List.cons.inj hks
      exact hhead

/-- Where a class is read in vain, none begins. -/
theorem not_isClass_of_classAfter (hopened : pattern[opened]? = some '[')
    (h : classAfter opened (glyphsAt pattern (opened + 1)) = .error (fault, position)) :
    ∀ front, front <+: pattern.drop opened → ¬IsClass front := by
  rintro front ⟨rest, hrest⟩ ⟨ks, ranges, inverted, hfront, hclass⟩
  obtain ⟨stop, hkinds⟩ := kinds_ofChars_append hfront rest opened
  have hglyphs := Descent.glyphsAt_plain hopened (by decide)
  rw [glyphsAt, ← hrest] at hglyphs
  rw [hglyphs, kinds_cons] at hkinds
  obtain ⟨stop', after, hok, -⟩ := classAfter_of_class opened hclass hkinds
  rw [h] at hok
  cases hok

/-- The class that the pattern ends in is unclosed, and its bracket is where the fault is. -/
theorem unclosed_of_classAfter (hopened : pattern[opened]? = some '[')
    (h : classAfter opened (glyphsAt pattern (opened + 1)) = .error (fault, position)) :
    (fault = .unexpectedEnd ∧ position = opened ∧ Unclosed (pattern.drop opened)) ∨
      ((fault = .escapeAtEnd ∨ fault = .badHexEscape) ∧ pattern[position]? = some '\\') ∨
      (fault = .badRange ∧ position < pattern.length) := by
  obtain ⟨ks, hbody, hfault⟩ := classFault_of_classAfter (sits_ofChars rfl) h
  cases hfault with
  | escape hfault hposition => exact .inr (.inl ⟨hfault, hposition⟩)
  | range hposition => exact .inr (.inr ⟨rfl, hposition⟩)
  | unclosed hsound hmore =>
    refine .inl ⟨rfl, rfl, not_isClass_of_classAfter hopened h, ?_⟩
    rw [Descent.drop_eq_cons hopened]
    exact exists_isClass_of_completable (spells_ofChars _ _ (hbody.sound hsound)) hbody hmore

end Lexeme

end Pattern

end LongestMatch
