import LongestMatch.Proofs.Grammar

/-!
# Trees put together from left to right

Symbols are grouped to tokens (`Tokenized`), and an `Assembly` takes in one token after another: in
each open bracket it keeps the alternatives so far, the sequence so far, and the latest operand, to
which signs may still apply.

* `derives_of_assemble` — a tree that is put together is derived from the symbols of its tokens.
* `exists_tokens_of_derives` — each tree that symbols derive is put together from their tokens.
-/

namespace LongestMatch

namespace Pattern

/-! ## Tokens -/

/-- A token: an operand, a bracket, a bar or a sign. -/
inductive Token where
  | operand (t : Tree)
  | openGroup (report : Bool)
  | closeGroup
  | bar
  | unary (op : Unary)
  | bounds (min : Nat) (max : Option Nat)

/-- Whether a token applies to the operand before it. -/
def Token.isSign : Token → Bool
  | unary _ => true
  | bounds _ _ => true
  | _ => false

/-- The brackets that open a group. -/
def opening (report : Bool) : List Glyph.Kind :=
  if report then [.plain '(', .plain '!'] else [.plain '(']

/-- The symbols of a token. -/
inductive Written : List Glyph.Kind → Token → Prop where
  | plain {c : Char} : c ∉ special → Written [.plain c] (.operand (.plain c))
  | escape (c : Char) : Written [.escaped c] (.operand (.escape c))
  | any : Written [.plain '.'] (.operand .any)
  | set {ks : List Glyph.Kind} {ranges : List CharRange} {inverted : Bool} :
      Class ks ranges inverted → Written ks (.operand (.set ranges inverted))
  | openGroup (report : Bool) : Written (opening report) (.openGroup report)
  | closeGroup : Written [.plain ')'] .closeGroup
  | bar : Written [.plain '|'] .bar
  | unary (op : Unary) : Written [.plain op.sign] (.unary op)
  | bounds {ks : List Glyph.Kind} {min : Nat} {max : Option Nat} :
      Bounds ks min max → Written ks (.bounds min max)

/-- The tokens of a row of symbols. A bracket before an exclamation mark opens a reporting group. -/
inductive Tokenized : List Glyph.Kind → List Token → Prop where
  | nil : Tokenized [] []
  | cons {ls ks : List Glyph.Kind} {tok : Token} {toks : List Token} :
      Written ls tok → (tok = .openGroup false → ks.head? ≠ some (.plain '!')) →
        Tokenized ks toks → Tokenized (ls ++ ks) (tok :: toks)

/-! ## Assemblies -/

/-- What has been read of an alternation. -/
structure Frame where
  /-- The earlier alternatives. -/
  alternatives : Option Tree := none
  /-- The sequence without its latest operand. -/
  begun : Option Tree := none
  /-- The latest operand. -/
  loose : Option Tree := none

namespace Frame

/-- The sequence with its latest operand. -/
def sequence (f : Frame) : Option Tree :=
  match f.begun, f.loose with
  | none, loose => loose
  | some s, none => some s
  | some s, some t => some (.seq s t)

/-- No sign applies to the latest operand any more. -/
def settle (f : Frame) : Frame :=
  { f with begun := f.sequence, loose := none }

/-- Adds an operand. -/
def add (f : Frame) (t : Tree) : Frame :=
  { f.settle with loose := some t }

theorem sequence_settle (f : Frame) : f.settle.sequence = f.sequence := by
  obtain ⟨alternatives, begun, loose⟩ := f
  cases begun <;> cases loose <;> rfl

theorem sequence_add (f : Frame) (t : Tree) :
    (f.add t).sequence = some (match f.sequence with | none => t | some s => .seq s t) := by
  show (match f.sequence, some t with
    | none, loose => loose
    | some s, none => some s
    | some s, some t => some (.seq s t)) = _
  cases f.sequence <;> rfl

/-- The alternation, if its last sequence is not empty. -/
def alternation (f : Frame) : Option Tree :=
  f.sequence.map fun t =>
    match f.alternatives with
    | none => t
    | some s => .or s t

theorem alternation_settle (f : Frame) : f.settle.alternation = f.alternation := by
  rw [alternation, sequence_settle]
  rfl

end Frame

/-- What has been read of a pattern: the innermost bracket, and those around it. -/
structure Assembly where
  here : Frame := {}
  /-- What the open groups interrupt, and whether they are reporting groups. -/
  outer : List (Frame × Bool) := []

namespace Assembly

/-- Ends the innermost group. -/
def close (z : Assembly) : Option Assembly :=
  match z.outer with
  | [] => none
  | (f, report) :: outer =>
    z.here.alternation.map fun t => ⟨{ f with loose := some (.group report t) }, outer⟩

/-- Takes in a token. -/
def step (z : Assembly) : Token → Option Assembly
  | .operand t => some { z with here := z.here.add t }
  | .openGroup report => some ⟨{}, (z.here.settle, report) :: z.outer⟩
  | .closeGroup => z.close
  | .bar => z.here.alternation.map fun t => { z with here := { alternatives := some t } }
  | .unary op => z.here.loose.map fun t => { z with here.loose := some (.unary op t) }
  | .bounds min max => z.here.loose.map fun t => { z with here.loose := some (.times min max t) }

/-- Takes in tokens. -/
def run (z : Assembly) : List Token → Option Assembly
  | [] => some z
  | tok :: toks => (z.step tok).bind fun z => z.run toks

/-- The tree of a whole pattern. -/
def finish (z : Assembly) : Option Tree :=
  match z.outer with
  | [] => z.here.alternation
  | _ :: _ => none

theorem run_append (z : Assembly) (toks toks' : List Token) :
    z.run (toks ++ toks') = (z.run toks).bind fun z => z.run toks' := by
  induction toks generalizing z with
  | nil => rfl
  | cons tok toks ih =>
    show (z.step tok).bind _ = ((z.step tok).bind _).bind _
    cases z.step tok with
    | none => rfl
    | some z => exact ih z

end Assembly

/-- The tree that tokens are put together to. -/
def assemble (toks : List Token) : Option Tree :=
  (Assembly.run {} toks).bind Assembly.finish

/-! ## Soundness -/

/-- Symbols of what may be absent. -/
def Derived (category : Category) : Option Tree → List Glyph.Kind → Prop
  | none, ks => ks = []
  | some t, ks => Derives category ks t

/-- Symbols of the alternatives before a sequence, with the bar after them. -/
def Frame.Led : Option Tree → List Glyph.Kind → Prop
  | none, ks => ks = []
  | some t, ks => ∃ ls, ks = ls ++ [.plain '|'] ∧ Derives .alternation ls t

/-- What has been read of an alternation is derived from these symbols. -/
def Frame.From (f : Frame) (ks : List Glyph.Kind) : Prop :=
  ∃ as ss ls, ks = as ++ ss ++ ls ∧ Led f.alternatives as ∧
    Derived .sequence f.begun ss ∧ Derived .factor f.loose ls

namespace Frame

variable {f : Frame} {ks ls : List Glyph.Kind} {t t' : Tree}

theorem from_empty : From {} [] :=
  ⟨[], [], [], rfl, rfl, rfl, rfl⟩

theorem From.settle (h : f.From ks) : f.settle.From ks := by
  obtain ⟨as, ss, ls, rfl, has, hss, hls⟩ := h
  refine ⟨as, ss ++ ls, [], by simp, has, ?_, rfl⟩
  -- a latest operand is the whole sequence, or its last factor
  show Derived .sequence f.sequence (ss ++ ls)
  unfold sequence
  cases hbegun : f.begun with
  | none =>
    rw [hbegun] at hss
    obtain rfl : ss = [] := hss
    cases hloose : f.loose with
    | none =>
      rw [hloose] at hls
      exact hls
    | some t =>
      rw [hloose] at hls
      exact Derives.factor hls
  | some s =>
    rw [hbegun] at hss
    cases hloose : f.loose with
    | none =>
      rw [hloose] at hls
      obtain rfl : ls = [] := hls
      rw [List.append_nil]
      exact hss
    | some t =>
      rw [hloose] at hls
      exact Derives.seq hss hls

theorem From.place (h : f.From ks) (hloose : f.loose = none) (ht : Derives .factor ls t) :
    From { f with loose := some t } (ks ++ ls) := by
  obtain ⟨as, ss, ms, rfl, has, hss, hms⟩ := h
  rw [hloose] at hms
  obtain rfl : ms = [] := hms
  exact ⟨as, ss, ls, by rw [List.append_nil], has, hss, ht⟩

theorem From.sign (h : f.From ks) (hloose : f.loose = some t)
    (ht : ∀ ms, Derives .factor ms t → Derives .factor (ms ++ ls) t') :
    From { f with loose := some t' } (ks ++ ls) := by
  obtain ⟨as, ss, ms, rfl, has, hss, hms⟩ := h
  rw [hloose] at hms
  exact ⟨as, ss, ms ++ ls, by rw [List.append_assoc _ ms], has, hss, ht ms hms⟩

theorem From.alternation (h : f.From ks) (ht : f.alternation = some t) :
    Derives .alternation ks t := by
  obtain ⟨as, ss, ls, rfl, has, hss, hls⟩ := h.settle
  obtain rfl : ls = [] := hls
  obtain ⟨s, hs, rfl⟩ := Option.map_eq_some_iff.1 ht
  have hss : Derived .sequence f.sequence ss := hss
  rw [hs] at hss
  have has : Led f.alternatives as := has
  rw [List.append_nil]
  cases halt : f.alternatives with
  | none =>
    rw [halt] at has
    obtain rfl : as = [] := has
    exact Derives.sequence hss
  | some s' =>
    rw [halt] at has
    obtain ⟨bs, rfl, hbs⟩ := has
    rw [List.append_assoc]
    exact Derives.or hbs hss

end Frame

/-- What the open groups interrupt is derived from these symbols, with the open brackets. -/
def Around : List (Frame × Bool) → List Glyph.Kind → Prop
  | [], ks => ks = []
  | (f, report) :: outer, ks =>
    f.loose = none ∧ ∃ ls ms, ks = ls ++ ms ++ opening report ∧ Around outer ls ∧ f.From ms

namespace Assembly

variable {z z' : Assembly} {ks ls : List Glyph.Kind} {tok : Token} {toks : List Token} {t : Tree}

/-- What has been read of a pattern is derived from these symbols. -/
def From (z : Assembly) (ks : List Glyph.Kind) : Prop :=
  ∃ ls ms, ks = ls ++ ms ∧ Around z.outer ls ∧ z.here.From ms

theorem From.operand (h : z.From ks) (ht : Derives .factor ls t) :
    From { z with here := z.here.add t } (ks ++ ls) := by
  obtain ⟨os, ms, rfl, hos, hms⟩ := h
  exact ⟨os, ms ++ ls, List.append_assoc .., hos, hms.settle.place rfl ht⟩

theorem From.sign (h : z.From ks) {t' : Tree} (hloose : z.here.loose = some t)
    (ht : ∀ ms, Derives .factor ms t → Derives .factor (ms ++ ls) t') :
    From { z with here.loose := some t' } (ks ++ ls) := by
  obtain ⟨os, ms, rfl, hos, hms⟩ := h
  exact ⟨os, ms ++ ls, List.append_assoc .., hos, hms.sign hloose ht⟩

/-- A group is an atom, whatever its brackets. -/
theorem derives_group (report : Bool) (h : Derives .alternation ks t) :
    Derives .factor (opening report ++ ks ++ [.plain ')']) (.group report t) := by
  rw [List.append_assoc]
  cases report with
  | false => exact .atom (.group h)
  | true => exact .atom (.report h)

/-- The innermost group becomes the latest operand of what it interrupts. -/
theorem From.close (h : z.From ks) (hz : z.close = some z') :
    z'.From (ks ++ [.plain ')']) := by
  obtain ⟨os, ms, rfl, hos, hms⟩ := h
  unfold Assembly.close at hz
  split at hz
  · cases hz
  · next f report outer houter =>
    obtain ⟨t, ht, rfl⟩ := Option.map_eq_some_iff.1 hz
    rw [houter] at hos
    obtain ⟨hloose, ns, fs, rfl, hns, hfs⟩ := hos
    refine ⟨ns, fs ++ (opening report ++ ms ++ [.plain ')']), by simp, hns, ?_⟩
    exact hfs.place hloose (derives_group report (hms.alternation ht))

/-- What one token adds. -/
theorem From.step (h : z.From ks) (hw : Written ls tok) (hz : z.step tok = some z') :
    z'.From (ks ++ ls) := by
  cases hw with
  | plain hc =>
    cases hz
    exact h.operand (.atom (.plain hc))
  | escape c =>
    cases hz
    exact h.operand (.atom (.escape c))
  | any =>
    cases hz
    exact h.operand (.atom .any)
  | set hclass =>
    cases hz
    exact h.operand (.atom (.set hclass))
  | openGroup report =>
    cases hz
    obtain ⟨os, ms, rfl, hos, hms⟩ := h
    exact ⟨os ++ ms ++ opening report, [], by simp, ⟨rfl, os, ms, rfl, hos, hms.settle⟩,
      Frame.from_empty⟩
  | closeGroup => exact h.close hz
  | bar =>
    obtain ⟨os, ms, rfl, hos, hms⟩ := h
    obtain ⟨t, ht, rfl⟩ := Option.map_eq_some_iff.1 hz
    refine ⟨os, ms ++ [.plain '|'], List.append_assoc .., hos, ?_⟩
    exact ⟨ms ++ [.plain '|'], [], [], by simp, ⟨ms, rfl, hms.alternation ht⟩, rfl, rfl⟩
  | unary op =>
    obtain ⟨t, ht, rfl⟩ := Option.map_eq_some_iff.1 hz
    exact h.sign ht fun ms hms => .unary op hms
  | bounds hb =>
    obtain ⟨t, ht, rfl⟩ := Option.map_eq_some_iff.1 hz
    exact h.sign ht fun ms hms => .times hms hb

theorem From.run (h : z.From ks) (htoks : Tokenized ls toks) (hz : z.run toks = some z') :
    z'.From (ks ++ ls) := by
  induction htoks generalizing z ks with
  | nil =>
    cases hz
    rw [List.append_nil]
    exact h
  | cons hw _ _ ih =>
    obtain ⟨z₁, hstep, hrun⟩ := Option.bind_eq_some_iff.1 hz
    rw [← List.append_assoc]
    exact ih (h.step hw hstep) hrun

end Assembly

/-- A tree that is put together is derived from the symbols of its tokens. -/
theorem derives_of_assemble {ks : List Glyph.Kind} {toks : List Token} {t : Tree}
    (htoks : Tokenized ks toks) (h : assemble toks = some t) : Derives .alternation ks t := by
  obtain ⟨z, hrun, hfinish⟩ := Option.bind_eq_some_iff.1 h
  have hempty : Assembly.From {} [] := ⟨[], [], rfl, rfl, Frame.from_empty⟩
  obtain ⟨os, ms, rfl, hos, hms⟩ := hempty.run htoks hrun
  unfold Assembly.finish at hfinish
  split at hfinish
  · next houter =>
    -- no group is open, so nothing comes before the innermost bracket
    rw [houter] at hos
    obtain rfl : os = [] := hos
    exact hms.alternation hfinish
  · cases hfinish

/-! ## Completeness -/

/-- What tokens do that stand for a tree of a category: an atom or a factor becomes the latest
operand, a sequence that begins here is the sequence read afterwards, and so for an alternation. -/
def Reads (t : Tree) (toks : List Token) : Category → Prop
  | .atom => ∀ z : Assembly, z.run toks = some { z with here := z.here.add t }
  | .factor => ∀ z : Assembly, z.run toks = some { z with here := z.here.add t }
  | .sequence => ∀ z : Assembly, z.here.sequence = none → ∃ f : Frame,
      z.run toks = some { z with here := f } ∧ f.alternatives = z.here.alternatives ∧
        f.sequence = some t
  | .alternation => ∀ outer, ∃ f : Frame,
      Assembly.run ⟨{}, outer⟩ toks = some ⟨f, outer⟩ ∧ f.alternation = some t

/-- Nothing that is derived begins with an exclamation mark. -/
theorem Derives.head_ne {category : Category} {ks : List Glyph.Kind} {t : Tree}
    (h : Derives category ks t) : ∃ k ls, ks = k :: ls ∧ k ≠ .plain '!' := by
  -- along the grammar: the first symbol is that of the first atom
  induction h with
  | @plain c hc =>
    refine ⟨_, _, rfl, fun heq => hc ?_⟩
    cases heq
    decide
  | escape c => exact ⟨_, _, rfl, nofun⟩
  | any => exact ⟨_, _, rfl, by decide⟩
  | set hclass => cases hclass <;> exact ⟨_, _, rfl, by decide⟩
  | group => exact ⟨_, _, rfl, by decide⟩
  | report => exact ⟨_, _, rfl, by decide⟩
  | atom _ ih => exact ih
  | unary op _ ih =>
    obtain ⟨k, ls, rfl, hk⟩ := ih
    exact ⟨k, _, rfl, hk⟩
  | times _ _ ih =>
    obtain ⟨k, ls, rfl, hk⟩ := ih
    exact ⟨k, _, rfl, hk⟩
  | factor _ ih => exact ih
  | seq _ _ ih =>
    obtain ⟨k, ls, rfl, hk⟩ := ih
    exact ⟨k, _, rfl, hk⟩
  | sequence _ ih => exact ih
  | or _ _ ih =>
    obtain ⟨k, ls, rfl, hk⟩ := ih
    exact ⟨k, _, rfl, hk⟩

/-- These symbols and tokens may come before any others. -/
def Leading (ks : List Glyph.Kind) (toks : List Token) : Prop :=
  ∀ ls toks', Tokenized ls toks' → Tokenized (ks ++ ls) (toks ++ toks')

section Leading

variable {ks ls : List Glyph.Kind} {tok : Token} {toks toks' : List Token} {t : Tree}

theorem leading_of_written (h : Written ks tok) (htok : tok ≠ .openGroup false) :
    Leading ks [tok] :=
  fun _ _ hls => .cons h (fun heq => absurd heq htok) hls

theorem Leading.append (h : Leading ks toks) (h' : Leading ls toks') :
    Leading (ks ++ ls) (toks ++ toks') := by
  intro ms toks'' hms
  rw [List.append_assoc, List.append_assoc]
  exact h _ _ (h' _ _ hms)

/-- Inside a group nothing is mistaken for the mark of a reporting group. -/
theorem leading_group (report : Bool) (h : Leading ks toks) (ht : Derives .alternation ks t) :
    Leading (opening report ++ ks ++ [.plain ')'])
      (.openGroup report :: (toks ++ [.closeGroup])) := by
  intro ms toks'' hms
  have hclose : Leading [.plain ')'] [.closeGroup] := leading_of_written .closeGroup nofun
  obtain ⟨k, ls, rfl, hk⟩ := ht.head_ne
  -- what is inside does not begin with an exclamation mark
  have hinner := (h.append hclose) _ _ hms
  rw [List.append_assoc, List.append_assoc]
  refine .cons (.openGroup report) (fun _ heq => hk ?_) ?_
  · exact Option.some.inj heq
  · rw [← List.append_assoc]
    exact hinner

end Leading

section Reads

variable {toks toks' : List Token} {s t : Tree}

theorem reads_group (report : Bool) (h : Reads t toks .alternation) :
    Reads (.group report t) (.openGroup report :: (toks ++ [.closeGroup])) .atom := by
  intro z
  obtain ⟨f, hrun, hf⟩ := h ((z.here.settle, report) :: z.outer)
  show Assembly.run ⟨{}, (z.here.settle, report) :: z.outer⟩ (toks ++ [.closeGroup]) = _
  rw [Assembly.run_append, hrun]
  show (Option.map _ f.alternation).bind _ = _
  rw [hf]
  rfl

theorem reads_seq (hs : Reads s toks .sequence) (ht : Reads t toks' .factor) :
    Reads (.seq s t) (toks ++ toks') .sequence := by
  intro z hz
  obtain ⟨f, hrun, halt, hf⟩ := hs z hz
  refine ⟨f.add t, ?_, halt, ?_⟩
  · rw [Assembly.run_append, hrun]
    exact ht _
  · rw [Frame.sequence_add, hf]

theorem reads_or (hs : Reads s toks .alternation) (ht : Reads t toks' .sequence) :
    Reads (.or s t) (toks ++ .bar :: toks') .alternation := by
  intro outer
  obtain ⟨f, hrun, hf⟩ := hs outer
  obtain ⟨f', hrun', halt, hf'⟩ := ht ⟨{ alternatives := some s }, outer⟩ rfl
  refine ⟨f', ?_, ?_⟩
  · rw [Assembly.run_append, hrun]
    show (Option.map _ f.alternation).bind _ = _
    rw [hf]
    exact hrun'
  · rw [Frame.alternation, hf', halt]
    rfl

end Reads

/-- Each tree is read from the tokens of its symbols. -/
theorem Derives.exists_reads {category : Category} {ks : List Glyph.Kind} {t : Tree}
    (h : Derives category ks t) : ∃ toks, Leading ks toks ∧ Reads t toks category := by
  -- along the grammar: the tokens of the parts one after another, a group's between its brackets
  induction h with
  | plain hc => exact ⟨_, leading_of_written (.plain hc) nofun, fun z => rfl⟩
  | escape c => exact ⟨_, leading_of_written (.escape c) nofun, fun z => rfl⟩
  | any => exact ⟨_, leading_of_written .any nofun, fun z => rfl⟩
  | set hclass => exact ⟨_, leading_of_written (.set hclass) nofun, fun z => rfl⟩
  | group ht ih =>
    obtain ⟨toks, hlead, hreads⟩ := ih
    exact ⟨_, leading_group false hlead ht, reads_group false hreads⟩
  | report ht ih =>
    obtain ⟨toks, hlead, hreads⟩ := ih
    exact ⟨_, leading_group true hlead ht, reads_group true hreads⟩
  | atom _ ih => exact ih
  | unary op _ ih =>
    obtain ⟨toks, hlead, hreads⟩ := ih
    refine ⟨toks ++ [.unary op], hlead.append (leading_of_written (.unary op) nofun), ?_⟩
    intro z
    rw [Assembly.run_append, hreads z]
    rfl
  | times _ hb ih =>
    obtain ⟨toks, hlead, hreads⟩ := ih
    refine ⟨toks ++ [.bounds _ _], hlead.append (leading_of_written (.bounds hb) nofun), ?_⟩
    intro z
    rw [Assembly.run_append, hreads z]
    rfl
  | factor _ ih =>
    -- a sequence begins where nothing has been read of it
    obtain ⟨toks, hlead, hreads⟩ := ih
    refine ⟨toks, hlead, fun z hz => ⟨_, hreads z, rfl, ?_⟩⟩
    rw [Frame.sequence_add, hz]
  | seq _ _ ihs iht =>
    obtain ⟨toks, hlead, hreads⟩ := ihs
    obtain ⟨toks', hlead', hreads'⟩ := iht
    exact ⟨_, hlead.append hlead', reads_seq hreads hreads'⟩
  | sequence _ ih =>
    obtain ⟨toks, hlead, hreads⟩ := ih
    refine ⟨toks, hlead, fun outer => ?_⟩
    obtain ⟨f, hrun, halt, hf⟩ := hreads ⟨{}, outer⟩ rfl
    refine ⟨f, hrun, ?_⟩
    rw [Frame.alternation, hf, halt]
    rfl
  | or _ _ ihs iht =>
    obtain ⟨toks, hlead, hreads⟩ := ihs
    obtain ⟨toks', hlead', hreads'⟩ := iht
    have hbar : Leading [.plain '|'] [.bar] := leading_of_written .bar nofun
    exact ⟨_, hlead.append (hbar.append hlead'), reads_or hreads hreads'⟩

/-- Each tree that symbols derive is put together from their tokens. -/
theorem exists_tokens_of_derives {ks : List Glyph.Kind} {t : Tree}
    (h : Derives .alternation ks t) : ∃ toks, Tokenized ks toks ∧ assemble toks = some t := by
  obtain ⟨toks, hlead, hreads⟩ := h.exists_reads
  obtain ⟨f, hrun, hf⟩ := hreads []
  refine ⟨toks, ?_, ?_⟩
  · simpa using hlead [] [] .nil
  · rw [assemble, hrun]
    exact hf

end Pattern

end LongestMatch
