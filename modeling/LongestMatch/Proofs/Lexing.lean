import LongestMatch.Proofs.Scanning

/-!
# Lexemes are the tokens of the grammar

A lexeme covers one token, or several if it is a text of characters that stand for themselves.

* `coversAll_of_tokenized` — where the symbols of a pattern have tokens, its lexemes cover them.
* `exists_tokenized` — where no lexeme is malformed, the symbols have tokens.
-/

namespace LongestMatch

namespace Pattern

/-- A sign comes next. -/
def SignNext (toks : List Token) : Prop :=
  ∃ tok ∈ toks.head?, tok.isSign = true

/-! ## Characters with a meaning of their own -/

theorem Unary.ofSign?_eq_some {c : Char} {op : Unary} :
    Unary.ofSign? c = some op ↔ c = op.sign := by
  constructor
  · intro h
    unfold ofSign? at h
    split at h <;> cases h <;> rfl
  · intro heq
    obtain rfl := heq
    cases op <;> rfl

theorem isSign_iff {c : Char} :
    Lexeme.isSign c = true ↔ c = '\x7b' ∨ ∃ op : Unary, c = op.sign := by
  rw [Lexeme.isSign, Bool.or_eq_true, beq_iff_eq, Option.isSome_iff_exists]
  simp only [Unary.ofSign?_eq_some]

theorem isSpecial_iff {c : Char} : Lexeme.isSpecial c = true ↔ c ∈ special := by
  have hsign : (∃ op : Unary, c = op.sign) ↔ c ∈ ['*', '+', '?', '^', '~', '!', '@'] := by
    constructor
    · intro h'
      obtain ⟨op, rfl⟩ := h'
      cases op <;> decide
    · intro h
      simp only [List.mem_cons, List.not_mem_nil, or_false] at h
      rcases h with h | h | h | h | h | h | h
      · exact ⟨.star, h⟩
      · exact ⟨.plus, h⟩
      · exact ⟨.optional, h⟩
      · exact ⟨.withoutMatch, h⟩
      · exact ⟨.invert, h⟩
      · exact ⟨.shortest, h⟩
      · exact ⟨.allPrefixes, h⟩
  simp only [Lexeme.isSpecial, Bool.or_eq_true, beq_iff_eq, isSign_iff, hsign, special,
    List.mem_cons, List.not_mem_nil, or_false]
  grind

theorem Written.ne_nil {ks : List Glyph.Kind} {tok : Token} (h : Written ks tok) : ks ≠ [] := by
  cases h with
  | set hclass => cases hclass <;> exact List.cons_ne_nil _ _
  | openGroup report => cases report <;> exact List.cons_ne_nil _ _
  | bounds hb => cases hb <;> exact List.cons_ne_nil _ _
  | _ => exact List.cons_ne_nil _ _

namespace Lexeme

variable {g : Glyph} {rest after glyphs : List Glyph} {c : Char} {ks : List Glyph.Kind}
  {toks : List Token} {n : Nat}

theorem literal?_eq_some : literal? g = some c ↔ g.kind = .plain c ∧ c ∉ special := by
  unfold literal?
  split
  · next d hk =>
    rw [← isSpecial_iff, hk]
    cases hd : isSpecial d with
    | true => grind
    | false => grind
  · next hk =>
    refine iff_of_false nofun fun h => ?_
    exact hk c h.1

/-- A sign in the text is a sign among the tokens, and the other way round. -/
theorem signFollows_iff (h : Tokenized (kinds glyphs) toks) :
    signFollows glyphs = true ↔ SignNext toks := by
  generalize hks : kinds glyphs = ks at h
  cases h with
  | nil =>
    rw [List.map_eq_nil_iff.1 hks]
    refine iff_of_false Bool.false_ne_true fun h => ?_
    obtain ⟨tok, htok, -⟩ := h
    cases htok
  | @cons ls ks tok toks hw _ _ =>
    have hnext : SignNext (tok :: toks) ↔ tok.isSign = true := by
      simp [SignNext]
    obtain ⟨k, ms, hls⟩ := List.exists_cons_of_ne_nil hw.ne_nil
    rw [hls] at hks
    obtain ⟨g, rest, rfl, hg, -⟩ := kinds_eq_cons.1 hks
    rw [hnext, signFollows, hg]
    cases hw with
    | plain hc =>
      cases hls
      refine iff_of_false (fun hsign => hc (isSpecial_iff.1 ?_)) Bool.false_ne_true
      have hsign : isSign _ = true := hsign
      simp only [isSpecial, hsign, Bool.true_or]
    | escape c =>
      cases hls
      exact iff_of_false Bool.false_ne_true Bool.false_ne_true
    | any =>
      cases hls
      exact iff_of_false Bool.false_ne_true Bool.false_ne_true
    | set hclass =>
      cases hclass <;> cases hls <;> exact iff_of_false Bool.false_ne_true Bool.false_ne_true
    | openGroup report =>
      cases report <;> cases hls <;> exact iff_of_false Bool.false_ne_true Bool.false_ne_true
    | closeGroup =>
      cases hls
      exact iff_of_false Bool.false_ne_true Bool.false_ne_true
    | bar =>
      cases hls
      exact iff_of_false Bool.false_ne_true Bool.false_ne_true
    | unary op =>
      cases hls
      exact iff_of_true (isSign_iff.2 (.inr ⟨op, rfl⟩)) rfl
    | bounds hb => cases hb <;> cases hls <;> exact iff_of_true rfl rfl

/-! ## Texts -/

/-- A character that stands for itself is a token of its own. -/
theorem tokenized_plain (hc : c ∉ special) (h : Tokenized (.plain c :: ks) toks) :
    ∃ toks', toks = .operand (.plain c) :: toks' ∧ Tokenized ks toks' := by
  generalize hls : Glyph.Kind.plain c :: ks = ls at h
  cases h with
  | nil => cases hls
  | cons hw _ htoks =>
    cases hw with
    | plain hd =>
      cases hls
      exact ⟨_, rfl, htoks⟩
    | escape d => cases hls
    | any =>
      cases hls
      exact absurd (by decide) hc
    | set hclass =>
      cases hclass <;> cases hls <;> exact absurd (by decide) hc
    | openGroup report =>
      cases report <;> cases hls <;> exact absurd (by decide) hc
    | closeGroup =>
      cases hls
      exact absurd (by decide) hc
    | bar =>
      cases hls
      exact absurd (by decide) hc
    | unary op =>
      cases hls
      cases op <;> exact absurd (by decide) hc
    | bounds hb =>
      cases hb <;> cases hls <;> exact absurd (by decide) hc

theorem not_tokenized_nil_cons {tok : Token} : ¬Tokenized [] (tok :: toks) := by
  generalize hks : ([] : List Glyph.Kind) = ks
  intro h
  cases h with
  | cons hw _ _ => exact hw.ne_nil (List.append_eq_nil_iff.1 hks.symm).1

/-- A token that is a character begins with it. -/
theorem kind_of_tokenized_plain (h : Tokenized (kinds (g :: rest)) (.operand (.plain c) :: toks)) :
    c ∉ special ∧ g.kind = .plain c := by
  rw [kinds_cons] at h
  generalize hks : g.kind :: kinds rest = ks at h
  cases h with
  | cons hw _ _ =>
    cases hw with
    | plain hc => exact ⟨hc, (List.cons.inj hks).1⟩

/-- The tokens of characters that stand for themselves. -/
def plains (cs : List Char) : List Token :=
  cs.map fun c => .operand (.plain c)

/-- The characters at the front that stand for themselves, as far as they are wanted. -/
theorem tokenized_drop_literals (h : Tokenized (kinds rest) toks) {n : Nat}
    (hn : n ≤ (literals rest).length) :
    ∃ toks', toks = plains (((literals rest).take n).map Prod.snd) ++ toks' ∧
      Tokenized (kinds (rest.drop n)) toks' := by
  induction n generalizing rest toks with
  | zero => exact ⟨toks, rfl, h⟩
  | succ n ih =>
    cases rest with
    | nil => cases hn
    | cons g rest =>
      rw [literals] at hn ⊢
      cases hg : literal? g with
      | none =>
        rw [hg] at hn
        cases hn
      | some c =>
        rw [hg] at hn
        obtain ⟨hk, hc⟩ := literal?_eq_some.1 hg
        rw [kinds_cons, hk] at h
        obtain ⟨toks₁, rfl, hrest⟩ := tokenized_plain hc h
        obtain ⟨toks', rfl, hdrop⟩ := ih hrest (Nat.le_of_succ_le_succ hn)
        exact ⟨toks', rfl, hdrop⟩

theorem exists_tokenized_of_drop (hn : n ≤ (literals rest).length)
    (h : Tokenized (kinds (rest.drop n)) toks) : ∃ toks', Tokenized (kinds rest) toks' := by
  induction n generalizing rest with
  | zero => exact ⟨toks, h⟩
  | succ n ih =>
    cases rest with
    | nil => cases hn
    | cons g rest =>
      rw [literals] at hn
      cases hg : literal? g with
      | none =>
        rw [hg] at hn
        cases hn
      | some c =>
        rw [hg] at hn
        obtain ⟨hk, hc⟩ := literal?_eq_some.1 hg
        obtain ⟨toks', htoks'⟩ := ih (Nat.le_of_succ_le_succ hn) h
        rw [kinds_cons, hk]
        exact ⟨_, .cons (.plain hc) nofun htoks'⟩

/-! ## What a lexeme covers -/

/-- The tokens that a lexeme stands for. -/
inductive Covers : Kind → List Token → Prop where
  | text (c : Char) (cs : List Char) : Covers (textOperand (c :: cs)) (plains (c :: cs))
  | escape (c : Char) : Covers (textOperand [c]) [.operand (.escape c)]
  | any : Covers (.operand .any) [.operand .any]
  | set (ranges : List CharRange) (inverted : Bool) :
      Covers (.operand (.set ranges inverted)) [.operand (.set ranges inverted)]
  | openGroup (report : Bool) : Covers (.openGroup report) [.openGroup report]
  | closeGroup : Covers .closeGroup [.closeGroup]
  | bar : Covers .bar [.bar]
  | unary (op : Unary) : Covers (.unary op) [.unary op]
  | bounds (min : Nat) (max : Option Nat) : Covers (.bounds min max) [.bounds min max]

/-- What may come after the tokens of a lexeme. No sign follows several tokens, and a character is
left for the next lexeme only because a sign follows it. -/
structure Fits (ts toks : List Token) : Prop where
  sign : 1 < ts.length → ¬SignNext toks
  plain : ∀ c d toks', ts.getLast? = some (.operand (.plain c)) →
    toks = .operand (.plain d) :: toks' → SignNext toks'

/-- The tokens that lexemes stand for. -/
inductive CoversAll : List Lexeme → List Token → Prop where
  | nil : CoversAll [] []
  | cons {l : Lexeme} {ls : List Lexeme} {ts toks : List Token} :
      Covers l.kind ts → Fits ts toks → CoversAll ls toks → CoversAll (l :: ls) (ts ++ toks)

/-- What the first lexeme covers, and the tokens after it. -/
def Begins (l : Lexeme) (after : List Glyph) (toks : List Token) : Prop :=
  ∃ ts toks', toks = ts ++ toks' ∧ Covers l.kind ts ∧ Fits ts toks' ∧
    Tokenized (kinds after) toks'

theorem begins_of_covers {l : Lexeme} {tok : Token} (h : Covers l.kind [tok])
    (hplain : ∀ c, tok ≠ .operand (.plain c)) (htoks : Tokenized (kinds after) toks) :
    Begins l after (tok :: toks) := by
  refine ⟨[tok], toks, rfl, h, ⟨fun hlt => absurd hlt (Nat.lt_irrefl 1), ?_⟩, htoks⟩
  intro c _ _ hlast
  exact absurd (Option.some.inj hlast) (hplain c)

/-- Behind all characters at the front that stand for themselves comes another token. -/
theorem not_plain_of_drop_literals
    (h : Tokenized (kinds (rest.drop (literals rest).length)) (.operand (.plain c) :: toks)) :
    False := by
  induction rest with
  | nil => exact absurd h not_tokenized_nil_cons
  | cons g rest ih =>
    rw [literals] at h
    cases hg : literal? g with
    | some d =>
      rw [hg] at h
      exact ih h
    | none =>
      rw [hg] at h
      obtain ⟨hc, hk⟩ := kind_of_tokenized_plain h
      rw [literal?_eq_some.2 ⟨hk, hc⟩] at hg
      cases hg

theorem begins_textAfter (g : Glyph) (c : Char) (h : Tokenized (kinds rest) toks) :
    Begins (textAfter g c rest).1 (textAfter g c rest).2 (.operand (.plain c) :: toks) := by
  obtain ⟨toks₀, htoks₀, hdrop₀⟩ := tokenized_drop_literals h (Nat.le_refl _)
  rw [List.take_length] at htoks₀
  unfold textAfter
  simp only
  split
  · next hsign =>
    -- the last character stands alone, and a sign follows it
    rw [Bool.and_eq_true, signFollows_iff hdrop₀, Bool.not_eq_true', List.isEmpty_eq_false_iff]
      at hsign
    obtain ⟨hsign, hne⟩ := hsign
    obtain ⟨toks', htoks', hdrop⟩ :=
      tokenized_drop_literals h (Nat.sub_le (literals rest).length 1)
    rw [← List.dropLast_append_getLast hne, List.map_append, plains, List.map_append, htoks',
      List.append_assoc, List.dropLast_eq_take] at htoks₀
    have hrest : toks' = .operand (.plain ((literals rest).getLast hne).2) :: toks₀ :=
      List.append_cancel_left htoks₀
    refine ⟨plains (c :: (literals rest).dropLast.map Prod.snd), toks', ?_, .text c _,
      ⟨fun _ hnext => ?_, fun d e toks'' _ heq => ?_⟩, hdrop⟩
    · rw [htoks', List.dropLast_eq_take]
      rfl
    · obtain ⟨tok, htok, hyes⟩ := hnext
      rw [hrest] at htok
      obtain rfl := Option.some.inj htok
      cases hyes
    · rw [hrest] at heq
      obtain ⟨-, rfl⟩ := List.cons.inj heq
      exact hsign
  · next hsign =>
    refine ⟨plains (c :: (literals rest).map Prod.snd), toks₀, by rw [htoks₀]; rfl, .text c _,
      ⟨fun hlt hnext => hsign ?_, fun d e toks'' _ heq => ?_⟩, hdrop₀⟩
    · rw [Bool.and_eq_true, signFollows_iff hdrop₀, Bool.not_eq_true', List.isEmpty_eq_false_iff]
      refine ⟨hnext, fun hnil => ?_⟩
      rw [hnil] at hlt
      exact absurd hlt (Nat.lt_irrefl 1)
    · rw [heq] at hdrop₀
      exact (not_plain_of_drop_literals hdrop₀).elim

/-! ## The first lexeme -/

theorem ofPlain_of_notMem (g : Glyph) (hc : c ∉ special) (rest : List Glyph) :
    ofPlain g c rest = textAfter g c rest := by
  have hsign : Unary.ofSign? c = none := by
    rw [Option.eq_none_iff_forall_ne_some]
    intro op hop
    rw [Unary.ofSign?_eq_some] at hop
    apply hc
    rw [hop]
    cases op <;> decide
  have hne : ∀ d ∈ special, c = d → False := fun d hd heq => hc (heq ▸ hd)
  rw [ofPlain, hsign]
  all_goals exact hne _ (by decide)

section First

variable {ls : List Glyph.Kind} {ranges : List CharRange} {inverted : Bool} {min : Nat}
  {max : Option Nat}

theorem begins_class (hclass : Class ls ranges inverted) (hks : g.kind :: kinds rest = ls ++ ks)
    (h : Tokenized ks toks) :
    Begins (next g rest).1 (next g rest).2 (.operand (.set ranges inverted) :: toks) := by
  have hk : g.kind = .plain '[' := by
    cases hclass <;> exact (List.cons.inj hks).1
  rw [hk] at hks
  obtain ⟨stop, after, hok, hafter⟩ := classAfter_of_class g.start hclass hks
  unfold next
  rw [hk]
  show Begins (ofReading g.start _ _ (classAfter g.start rest)).1
    (ofReading g.start _ _ (classAfter g.start rest)).2 _
  rw [hok]
  exact begins_of_covers (.set _ _) nofun (hafter ▸ h)

theorem begins_bounds (hb : Bounds ls min max) (hks : g.kind :: kinds rest = ls ++ ks)
    (h : Tokenized ks toks) :
    Begins (next g rest).1 (next g rest).2 (.bounds min max :: toks) := by
  have hk : g.kind = .plain '\x7b' := by
    cases hb <;> exact (List.cons.inj hks).1
  rw [hk] at hks
  obtain ⟨stop, after, hok, hafter⟩ := boundsAfter_of_bounds g.start g.stop hb hks
  unfold next
  rw [hk]
  show Begins (ofReading g.start _ _ (boundsAfter g.start g.stop rest)).1
    (ofReading g.start _ _ (boundsAfter g.start g.stop rest)).2 _
  rw [hok]
  exact begins_of_covers (.bounds _ _) nofun (hafter ▸ h)

/-- With an exclamation mark after it, a bracket opens a reporting group. -/
theorem begins_report (hk : g.kind = .plain '(') (hks : kinds rest = .plain '!' :: ks)
    (h : Tokenized ks toks) :
    Begins (next g rest).1 (next g rest).2 (.openGroup true :: toks) := by
  obtain ⟨bang, tail, rfl, hbang, rfl⟩ := kinds_eq_cons.1 hks
  have hbang : bang.is '!' = true := Glyph.is_iff.2 hbang
  unfold next
  rw [hk]
  show Begins (if bang.is '!' = true then _ else _ : Lexeme × List Glyph).1
    (if bang.is '!' = true then _ else _ : Lexeme × List Glyph).2 _
  rw [if_pos hbang]
  exact begins_of_covers (.openGroup true) nofun h

theorem begins_group (hk : g.kind = .plain '(') (hopen : (kinds rest).head? ≠ some (.plain '!'))
    (h : Tokenized (kinds rest) toks) :
    Begins (next g rest).1 (next g rest).2 (.openGroup false :: toks) := by
  unfold next
  rw [hk]
  cases rest with
  | nil => exact begins_of_covers (.openGroup false) nofun h
  | cons bang tail =>
    have hbang : ¬bang.is '!' = true := by
      intro hb
      apply hopen
      rw [kinds_cons, Glyph.is_iff.1 hb]
      rfl
    show Begins (if bang.is '!' = true then _ else _ : Lexeme × List Glyph).1
      (if bang.is '!' = true then _ else _ : Lexeme × List Glyph).2 _
    rw [if_neg hbang]
    exact begins_of_covers (.openGroup false) nofun h

/-- The first lexeme covers the first tokens. -/
theorem begins_next (h : Tokenized (g.kind :: kinds rest) toks) :
    Begins (next g rest).1 (next g rest).2 toks := by
  generalize hks : g.kind :: kinds rest = ks at h
  cases h with
  | nil => cases hks
  | @cons ls ks tok toks hw hopen htoks =>
    cases hw with
    | set hclass => exact begins_class hclass hks htoks
    | bounds hb => exact begins_bounds hb hks htoks
    | openGroup report =>
      cases report with
      | true =>
        obtain ⟨hk, hrest⟩ := List.cons.inj hks
        exact begins_report hk hrest htoks
      | false =>
        obtain ⟨hk, hrest⟩ := List.cons.inj hks
        have hrest : kinds rest = ks := hrest
        exact begins_group hk (hrest ▸ hopen rfl) (hrest ▸ htoks)
    | plain hc =>
      obtain ⟨hk, rfl⟩ := List.cons.inj hks
      unfold next
      rw [hk]
      show Begins (ofPlain g _ rest).1 (ofPlain g _ rest).2 _
      rw [ofPlain_of_notMem g hc]
      exact begins_textAfter g _ htoks
    | escape c =>
      obtain ⟨hk, rfl⟩ := List.cons.inj hks
      unfold next
      rw [hk]
      exact begins_of_covers (.escape c) nofun htoks
    | any =>
      obtain ⟨hk, rfl⟩ := List.cons.inj hks
      unfold next
      rw [hk]
      exact begins_of_covers .any nofun htoks
    | closeGroup =>
      obtain ⟨hk, rfl⟩ := List.cons.inj hks
      unfold next
      rw [hk]
      exact begins_of_covers .closeGroup nofun htoks
    | bar =>
      obtain ⟨hk, rfl⟩ := List.cons.inj hks
      unfold next
      rw [hk]
      exact begins_of_covers .bar nofun htoks
    | unary op =>
      obtain ⟨hk, rfl⟩ := List.cons.inj hks
      unfold next
      rw [hk]
      cases op <;> exact begins_of_covers (.unary _) nofun htoks

end First

/-- Where the symbols of a pattern have tokens, its lexemes cover them. -/
theorem coversAll_of_tokenized (glyphs : List Glyph) (h : Tokenized (kinds glyphs) toks) :
    CoversAll (ofGlyphs glyphs) toks := by
  induction hn : glyphs.length using Nat.strongRecOn generalizing glyphs toks with
  | ind n ih =>
    cases glyphs with
    | nil =>
      generalize hks : kinds [] = ks at h
      cases h with
      | nil =>
        rw [ofGlyphs]
        exact .nil
      | cons hw _ _ => exact absurd (List.append_eq_nil_iff.1 hks.symm).1 hw.ne_nil
    | cons g rest =>
      obtain ⟨ts, toks', rfl, hcovers, hfits, hafter⟩ := begins_next h
      have hlen := length_next g rest
      have hlt : (next g rest).2.length < n := by
        rw [← hn, List.length_cons]
        omega
      rw [ofGlyphs]
      exact .cons hcovers hfits (ih _ hlt _ hafter rfl)

/-! ## Lexemes that are not malformed -/

/-- Whether a lexeme carries a fault. -/
def Kind.IsBad : Kind → Prop
  | .badOperand _ _ => True
  | .badBounds _ _ => True
  | _ => False

/-- What is left after a lexeme is the rest of the symbols, and if it has tokens so have they all.
-/
def Leaves (ks : List Glyph.Kind) (after : List Glyph) : Prop :=
  (∃ ls, ks = ls ++ kinds after) ∧
    ∀ toks, Tokenized (kinds after) toks → ∃ toks', Tokenized ks toks'

theorem leaves_of_written {ls : List Glyph.Kind} {tok : Token} (hw : Written ls tok)
    (hopen : tok = .openGroup false → (kinds after).head? ≠ some (.plain '!')) :
    Leaves (ls ++ kinds after) after :=
  ⟨⟨ls, rfl⟩, fun _ htoks => ⟨_, .cons hw hopen htoks⟩⟩

theorem leaves_textAfter (g : Glyph) (hc : c ∉ special) (rest : List Glyph) :
    Leaves (.plain c :: kinds rest) (textAfter g c rest).2 := by
  have hdrop : ∀ n ≤ (literals rest).length, Leaves (.plain c :: kinds rest) (rest.drop n) := by
    intro n hn
    refine ⟨⟨.plain c :: kinds (rest.take n), ?_⟩, fun toks htoks => ?_⟩
    · rw [List.cons_append, kinds, kinds, kinds, ← List.map_append, List.take_append_drop]
    · obtain ⟨toks', htoks'⟩ := exists_tokenized_of_drop hn htoks
      exact ⟨_, .cons (.plain hc) (by simp) htoks'⟩
  unfold textAfter
  simp only
  split
  · exact hdrop _ (Nat.sub_le _ _)
  · exact hdrop _ (Nat.le_refl _)

theorem leaves_bounds (hgood : ¬(ofReading g.start (fun b => .bounds b.1 b.2) .badBounds
      (boundsAfter g.start g.stop rest)).1.kind.IsBad) :
    Leaves (.plain '\x7b' :: kinds rest) (ofReading g.start (fun b => .bounds b.1 b.2) .badBounds
      (boundsAfter g.start g.stop rest)).2 := by
  cases hread : boundsAfter g.start g.stop rest with
  | error e =>
    rw [hread] at hgood
    exact absurd trivial hgood
  | ok r =>
    obtain ⟨⟨min, max⟩, stop, after⟩ := r
    obtain ⟨ls, hb, hks⟩ := bounds_of_boundsAfter hread
    rw [hks]
    exact leaves_of_written (.bounds hb) (by simp)

theorem leaves_class
    (hgood : ¬(ofReading g.start .operand .badOperand (classAfter g.start rest)).1.kind.IsBad) :
    Leaves (.plain '[' :: kinds rest)
      (ofReading g.start .operand .badOperand (classAfter g.start rest)).2 := by
  cases hread : classAfter g.start rest with
  | error e =>
    rw [hread] at hgood
    exact absurd trivial hgood
  | ok r =>
    obtain ⟨instr, stop, after⟩ := r
    obtain ⟨ls, rs, inverted, rfl, hclass, hks⟩ := class_of_classAfter hread
    rw [hks]
    exact leaves_of_written (.set hclass) (by simp)

theorem leaves_ofPlain (hc : c ≠ '\\') (hgood : ¬(ofPlain g c rest).1.kind.IsBad) :
    Leaves (.plain c :: kinds rest) (ofPlain g c rest).2 := by
  unfold ofPlain at hgood ⊢
  split
  · next op hop =>
    rw [Unary.ofSign?_eq_some.1 hop]
    exact leaves_of_written (.unary op) (by simp)
  · next hop =>
    rw [hop] at hgood
    split
    · exact leaves_bounds hgood
    · exact leaves_class hgood
    · split
      · exact leaves_of_written (.openGroup false) (by simp)
      · next bang tail =>
        split
        · next hbang =>
          rw [kinds_cons, Glyph.is_iff.1 hbang]
          exact leaves_of_written (.openGroup true) (by simp)
        · next hbang =>
          refine leaves_of_written (.openGroup false) fun _ hhead => hbang ?_
          exact Glyph.is_iff.2 (Option.some.inj hhead)
    · exact leaves_of_written .closeGroup (by simp)
    · exact leaves_of_written .bar (by simp)
    · exact leaves_of_written .any (by simp)
    · refine leaves_textAfter g (fun hmem => ?_) rest
      simp only [special, List.mem_cons, List.not_mem_nil, or_false] at hmem
      rcases hmem with rfl | rfl | rfl | rfl | rfl | rfl | rfl | rfl | rfl | rfl | rfl | rfl | rfl |
        rfl <;> contradiction

theorem leaves_next (hslash : g.kind ≠ .plain '\\') (hgood : ¬(next g rest).1.kind.IsBad) :
    Leaves (g.kind :: kinds rest) (next g rest).2 := by
  unfold next at hgood ⊢
  split
  · next c hk =>
    rw [hk] at hgood hslash ⊢
    exact leaves_ofPlain (fun hc => hslash (by rw [hc])) hgood
  · next c hk =>
    rw [hk]
    exact leaves_of_written (.escape c) (by simp)
  · next hk =>
    rw [hk] at hgood
    exact absurd trivial hgood

/-- Where no lexeme is malformed, the symbols have tokens. -/
theorem exists_tokenized (glyphs : List Glyph) (hslash : .plain '\\' ∉ kinds glyphs)
    (hgood : ∀ l ∈ ofGlyphs glyphs, ¬l.kind.IsBad) : ∃ toks, Tokenized (kinds glyphs) toks := by
  induction hn : glyphs.length using Nat.strongRecOn generalizing glyphs with
  | ind n ih =>
    cases glyphs with
    | nil => exact ⟨[], .nil⟩
    | cons g rest =>
      rw [ofGlyphs] at hgood
      obtain ⟨hfirst, hgood⟩ := List.forall_mem_cons.1 hgood
      rw [kinds_cons] at hslash ⊢
      have hhead : g.kind ≠ .plain '\\' := fun hk => hslash (hk ▸ List.mem_cons_self)
      obtain ⟨⟨ls, hls⟩, hleaves⟩ := leaves_next hhead hfirst
      have hlen := length_next g rest
      have hlt : (next g rest).2.length < n := by
        rw [← hn, List.length_cons]
        omega
      rw [hls] at hslash
      obtain ⟨toks, htoks⟩ :=
        ih _ hlt _ (fun hmem => hslash (List.mem_append_right _ hmem)) hgood rfl
      exact hleaves toks htoks

end Lexeme

/-! ## No token has a broken symbol -/

variable {ks : List Glyph.Kind} {fault : Fault}

theorem Stands.ne_broken {k : Glyph.Kind} {c : Char} (h : Stands k c) : .broken fault ≠ k := by
  cases h <;> nofun

theorem Item.broken_notMem {first : Bool} {r : CharRange} (h : Item first ks r) :
    .broken fault ∉ ks := by
  cases h with
  | single hk _ => simp [hk.ne_broken]
  | range hk _ hl _ _ => simp [hk.ne_broken, hl.ne_broken]

theorem Items.broken_notMem {first : Bool} {rs : List CharRange} (h : Items first ks rs) :
    .broken fault ∉ ks := by
  induction h with
  | one hitem => exact hitem.broken_notMem
  | cons hitem _ ih => simp [hitem.broken_notMem, ih]

theorem Numeral.broken_notMem {n : Nat} (h : Numeral ks n) : .broken fault ∉ ks := by
  cases h with
  | intro => simp

theorem Written.broken_notMem {tok : Token} (h : Written ks tok) : .broken fault ∉ ks := by
  cases h with
  | plain => simp
  | escape => simp
  | any => simp
  | set hclass =>
    cases hclass with
    | inside _ hitems => simp [hitems.broken_notMem]
    | outside hitems => simp [hitems.broken_notMem]
  | openGroup report => cases report <;> simp [opening]
  | closeGroup => simp
  | bar => simp
  | unary => simp
  | bounds hb =>
    cases hb with
    | exact hm _ => simp [hm.broken_notMem]
    | between hm hn _ _ => simp [hm.broken_notMem, hn.broken_notMem]
    | atLeast hm => simp [hm.broken_notMem]

theorem Tokenized.broken_notMem {toks : List Token} (h : Tokenized ks toks) :
    .broken fault ∉ ks := by
  induction h with
  | nil => nofun
  | cons hw _ _ ih => simp [hw.broken_notMem, ih]

end Pattern

end LongestMatch
