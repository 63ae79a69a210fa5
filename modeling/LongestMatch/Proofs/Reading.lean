import LongestMatch.Proofs.Lexing
import LongestMatch.Proofs.Rendering

/-!
# Reading a pattern puts its tree together

The reader knows of each open bracket what is there already, an `Assembly` keeps the trees. While
lexemes are read the two go along, and the instructions so far are those of the trees (`Tracks`).
After a text of several characters the reader has them as one operand, the assembly one by one; then
the two agree only once the latest operand is settled (`Follows`), which is enough as long as no sign
comes next.

* `read_of_coversAll` — the reader and the assembly succeed alike, and then the instructions are
  those of the tree.
-/

namespace LongestMatch

namespace Pattern

open Stretch (expandAll expandAll_append expandAll_single)

variable {f : Frame} {z z' : Assembly} {p p' : Progress} {E : List Instr} {s t : Tree} {l : Lexeme}
  {stretches : List Stretch} {ts toks : List Token}

/-! ## The instructions of an assembly -/

/-- The instructions of what may be absent. -/
def callsOf (t : Option Tree) : List Instr :=
  t.elim [] Tree.calls

/-- The instructions of the trees of an alternation, which are still apart. -/
def Frame.calls (f : Frame) : List Instr :=
  callsOf f.alternatives ++ callsOf f.begun ++ callsOf f.loose

/-- The pieces of the sequence with its latest operand. -/
def Frame.pieces (f : Frame) : List Piece :=
  f.sequence.elim [] Tree.pieces

/-- The instructions of what the open groups interrupt. -/
def callsAround (outer : List (Frame × Bool)) : List Instr :=
  outer.reverse.flatMap fun o => o.1.calls

/-- The instructions of all the trees. -/
def Assembly.calls (z : Assembly) : List Instr :=
  callsAround z.outer ++ z.here.calls

theorem callsAround_cons (o : Frame × Bool) (outer : List (Frame × Bool)) :
    callsAround (o :: outer) = callsAround outer ++ o.1.calls := by
  rw [callsAround, List.reverse_cons, List.flatMap_append]
  simp [callsAround]

theorem Frame.calls_settle (f : Frame) :
    f.settle.calls = callsOf f.alternatives ++ Piece.joined f.pieces := by
  rw [calls, settle, pieces]
  cases f.sequence with
  | none => simp [callsOf, Piece.joined]
  | some t => simp [callsOf, Tree.calls]

theorem Frame.pieces_add (f : Frame) (t : Tree) (h : t.pieces = [Piece.single t.pieces]) :
    (f.add t).pieces = Piece.push f.pieces (Piece.single t.pieces) := by
  rw [pieces, sequence_add, pieces]
  cases f.sequence with
  | none =>
    show t.pieces = _
    rw [h]
    rfl
  | some s => rfl

theorem Frame.settle_of_loose_eq_none {f : Frame} (h : f.loose = none) : f.settle = f := by
  obtain ⟨alternatives, begun, loose⟩ := f
  obtain rfl : loose = none := h
  cases begun <;> rfl

/-- The latest operand can be settled as it is: no rows of characters meet. -/
def Frame.Apart (f : Frame) : Prop :=
  ∀ s ∈ f.begun, ∀ t ∈ f.loose, (Tree.seq s t).calls = s.calls ++ t.calls ++ [.seq]

/-- The innermost bracket is settled. -/
def Assembly.settle (z : Assembly) : Assembly :=
  { z with here := z.here.settle }

/-! ## The reader and the assembly -/

/-- The reader knows which parts of an alternation there are. -/
structure Knows (level : Level) (f : Frame) : Prop where
  alternatives : level.alternatives = f.alternatives.isSome
  begun : level.begun = f.begun.isSome
  loose : level.loose = f.loose.isSome

/-- The reader knows what an open group interrupts. -/
structure KnowsOuter (g : OpenGroup) (o : Frame × Bool) : Prop where
  knows : Knows g.outer o.1
  loose_eq : o.1.loose = none
  report_eq : g.report = o.2

/-- The reader and the assembly are at the same point, and the instructions are those of the trees.
-/
structure Tracks (p : Progress) (E : List Instr) (z : Assembly) : Prop where
  knows : Knows p.level z.here
  outer : List.Forall₂ KnowsOuter p.groups z.outer
  calls_eq : E = z.calls

/-- They are as soon as the latest operand is settled. -/
def Follows (p : Progress) (E : List Instr) (z : Assembly) : Prop :=
  Tracks p.settle.2 (E ++ expandAll p.settle.1) z.settle

theorem Tracks.follows (h : Tracks p E z) (hapart : z.here.Apart) : Follows p E z := by
  obtain ⟨⟨halt, hbegun, hloose⟩, houter, rfl⟩ := h
  unfold Follows Progress.settle
  cases hz : z.here.loose with
  | none =>
    have hno : ¬p.level.loose = true := by simp [hloose, hz]
    have hsettle : z.settle = z := by
      rw [Assembly.settle, Frame.settle_of_loose_eq_none hz]
    rw [if_neg hno, hsettle]
    exact ⟨⟨halt, hbegun, hloose⟩, houter, List.append_nil _⟩
  | some t =>
    have hyes : p.level.loose = true := by simp [hloose, hz]
    rw [if_pos hyes]
    have hsome : true = z.here.sequence.isSome := by
      rw [Frame.sequence, hz]
      cases z.here.begun <;> rfl
    refine ⟨⟨halt, hsome, rfl⟩, houter, ?_⟩
    rw [Assembly.calls, Assembly.calls, List.append_assoc]
    refine congrArg (callsAround z.outer ++ ·) ?_
    show _ = z.here.settle.calls
    rw [Frame.calls_settle, Frame.calls, Frame.pieces, Frame.sequence, hbegun, hz]
    cases hs : z.here.begun with
    | none => simp [callsOf, expandAll, Tree.calls]
    | some s =>
      -- the latest operand is joined to what the sequence holds
      have hseq := hapart s hs t hz
      rw [Tree.calls] at hseq
      show _ ++ expandAll [Stretch.single .seq p.position] = _ ++ Piece.joined (Tree.seq s t).pieces
      rw [hseq, expandAll_single]
      simp [callsOf]

/-- What settles the latest operand: everything but a sign. -/
def Lexeme.Kind.Settles : Lexeme.Kind → Prop
  | unary _ => False
  | bounds _ _ => False
  | badBounds _ _ => False
  | _ => True

/-- A lexeme that is no sign goes on from where everything is settled. -/
theorem step_of_settles (hl : l.kind.Settles) :
    p.step l = (p.settle.1 ++ (p.settle.2.proceed l).1, (p.settle.2.proceed l).2) := by
  unfold Progress.step
  generalize hk : l.kind = k at hl
  cases k with
  | unary op => exact hl.elim
  | bounds min max => exact hl.elim
  | badBounds fault position => exact hl.elim
  | _ => rfl

/-! ## What a token does -/

/-- The reader takes a step that the assembly can take as well, and afterwards they are at the same
point; or neither can. -/
def Agrees (E : List Instr) (z : Assembly) (ts : List Token) :
    List Stretch × Except (Fault × Nat) Progress → Prop
  | (stretches, .ok p') => ∃ z', z.run ts = some z' ∧ Tracks p' (E ++ expandAll stretches) z'
  | (_, .error _) => z.run ts = none

theorem run_singleton (z : Assembly) (tok : Token) : z.run [tok] = z.step tok :=
  Option.bind_fun_some _

/-- What is settled first is among the instructions. -/
theorem agrees_of_settles {result : List Stretch × Except (Fault × Nat) Progress}
    {joined : List Stretch} (h : Agrees (E ++ expandAll joined) z ts result) :
    Agrees E z ts (joined ++ result.1, result.2) := by
  obtain ⟨stretches, p | fault⟩ := result
  · exact h
  · obtain ⟨z', hrun, htracks⟩ := h
    refine ⟨z', hrun, ?_⟩
    rw [expandAll_append, ← List.append_assoc]
    exact htracks

/-- A sign changes the latest operand, if there is one that it can follow. -/
theorem Tracks.sign (h : Tracks p E z) {tok : Token} {added : List Stretch} {g : Tree → Tree}
    (hcalls : ∀ t, (g t).calls = t.calls ++ expandAll added)
    (hz : z.step tok = z.here.loose.map fun t => { z with here.loose := some (g t) }) :
    Agrees E z [tok] (p.sign l added) := by
  obtain ⟨⟨halt, hbegun, hloose⟩, houter, rfl⟩ := h
  unfold Progress.sign
  split
  · next hyes =>
    obtain ⟨t, ht⟩ := Option.isSome_iff_exists.1 (hloose.symm.trans hyes)
    rw [ht] at hz
    refine ⟨_, (run_singleton z tok).trans hz, ⟨halt, hbegun, hyes⟩, houter, ?_⟩
    simp only [Assembly.calls, Frame.calls, ht, callsOf, Option.elim_some, hcalls,
      List.append_assoc]
  · next hno =>
    have hnone : z.here.loose = none := by
      rw [← Option.not_isSome_iff_eq_none, ← hloose]
      exact hno
    rw [Agrees, run_singleton, hz, hnone]
    rfl

/-- The end of a sequence leaves the alternation. -/
theorem Tracks.endSequence (h : Tracks p E z) (hsettled : z.here.loose = none) :
    match z.here.alternation with
    | some t => p.level.begun = true ∧
      E ++ expandAll p.endSequence = callsAround z.outer ++ t.calls
    | none => p.level.begun = false := by
  obtain ⟨⟨halt, hbegun, -⟩, -, rfl⟩ := h
  rw [Frame.alternation, Frame.sequence, hsettled, Progress.endSequence, halt, hbegun]
  cases hs : z.here.begun with
  | none => rfl
  | some s =>
    refine ⟨rfl, ?_⟩
    cases ha : z.here.alternatives with
    | none =>
      simp [Assembly.calls, Frame.calls, callsOf, hsettled, hs, ha, expandAll]
    | some a =>
      show _ ++ expandAll [Stretch.single .or p.position] = _ ++ (Tree.or a s).calls
      rw [expandAll_single, Tree.calls_or]
      simp [Assembly.calls, Frame.calls, callsOf, hsettled, hs, ha]

/-- A bar makes the alternation so far the earlier alternatives. -/
theorem Follows.bar (h : Follows p E z) (hl : l.kind = .bar) : Agrees E z [.bar] (p.step l) := by
  rw [step_of_settles (by rw [hl]; trivial)]
  apply agrees_of_settles
  have hend := h.endSequence rfl
  have halt : z.settle.here.alternation = z.here.alternation := z.here.alternation_settle
  rw [halt] at hend
  unfold Progress.proceed
  rw [hl]
  simp only
  cases ht : z.here.alternation with
  | none =>
    rw [ht] at hend
    rw [if_neg (by rw [hend]; exact Bool.false_ne_true), Agrees, run_singleton, Assembly.step, ht]
    rfl
  | some t =>
    rw [ht] at hend
    obtain ⟨hbegun, hcalls⟩ := hend
    rw [if_pos hbegun]
    refine ⟨{ z with here := { alternatives := some t } }, (run_singleton z .bar).trans ?_,
      ⟨rfl, rfl, rfl⟩, h.outer, ?_⟩
    · rw [Assembly.step, ht]
      rfl
    · rw [hcalls]
      simp [Assembly.calls, Frame.calls, callsOf]
      rfl

/-- A closing bracket ends the innermost group. -/
theorem Follows.closeGroup (h : Follows p E z) (hl : l.kind = .closeGroup) :
    Agrees E z [.closeGroup] (p.step l) := by
  rw [step_of_settles (by rw [hl]; trivial)]
  apply agrees_of_settles
  have hend := h.endSequence rfl
  have halt : z.settle.here.alternation = z.here.alternation := z.here.alternation_settle
  have houter : List.Forall₂ KnowsOuter p.settle.2.groups z.outer := h.outer
  rw [halt] at hend
  unfold Progress.proceed Progress.close
  rw [hl]
  simp only
  cases hgroups : p.settle.2.groups with
  | nil =>
    rw [hgroups] at houter
    have hnil : z.outer = [] := List.forall₂_nil_left_iff.1 houter
    have hnone : z.run [.closeGroup] = none := by
      rw [run_singleton, Assembly.step, Assembly.close, hnil]
    simp only
    split <;> exact hnone
  | cons g groups =>
    rw [hgroups] at houter
    simp only
    cases hz : z.outer with
    | nil =>
      rw [hz] at houter
      cases houter
    | cons o outer =>
      rw [hz] at houter
      cases houter with
      | cons hfirst hrest =>
        obtain ⟨⟨halt', hbegun', -⟩, hloose, hreport⟩ := hfirst
        have hclose : z.run [.closeGroup] = z.here.alternation.map fun t =>
            ⟨{ o.1 with loose := some (.group o.2 t) }, outer⟩ := by
          rw [run_singleton, Assembly.step, Assembly.close, hz]
        cases ht : z.here.alternation with
        | none =>
          rw [ht] at hend hclose
          rw [if_neg (by rw [hend]; exact Bool.false_ne_true)]
          exact hclose
        | some t =>
          rw [ht] at hend hclose
          obtain ⟨hbegun, hcalls⟩ := hend
          have hcalls : E ++ expandAll p.settle.1 ++ expandAll p.settle.2.endSequence =
              callsAround z.outer ++ t.calls := hcalls
          rw [if_pos hbegun]
          refine ⟨_, hclose, ⟨halt', hbegun', rfl⟩, hrest, ?_⟩
          rw [expandAll_append, ← List.append_assoc, hcalls, hz, callsAround_cons, hreport]
          cases hr : o.2 with
          | false => simp [Assembly.calls, Frame.calls, callsOf, hloose, expandAll, Tree.calls_group]
          | true =>
            simp [Assembly.calls, Frame.calls, callsOf, hloose, expandAll_single, Tree.calls_group]

theorem Follows.openGroup (h : Follows p E z) {report : Bool} (hl : l.kind = .openGroup report) :
    Agrees E z [.openGroup report] (p.step l) := by
  rw [step_of_settles (by rw [hl]; trivial)]
  apply agrees_of_settles
  unfold Progress.proceed
  rw [hl]
  refine ⟨⟨{}, (z.here.settle, report) :: z.outer⟩, rfl, ⟨rfl, rfl, rfl⟩,
    .cons ⟨h.knows, rfl, rfl⟩ h.outer, ?_⟩
  rw [h.calls_eq]
  simp [Assembly.calls, callsAround_cons, Frame.calls, callsOf, expandAll, Assembly.settle]

/-- An operand is added to the sequence. -/
theorem Follows.operand (h : Follows p E z) {instr : Instr} (hl : l.kind = .operand instr)
    (hcalls : t.calls = [instr]) :
    ∃ stretches p', p.step l = (stretches, .ok p') ∧
      Tracks p' (E ++ expandAll stretches) { z with here := z.here.add t } := by
  rw [step_of_settles (by rw [hl]; trivial)]
  unfold Progress.proceed
  rw [hl]
  refine ⟨_, _, rfl, ⟨h.knows.alternatives, h.knows.begun, rfl⟩, h.outer, ?_⟩
  have hnone : z.here.settle.loose = none := rfl
  rw [expandAll_append, expandAll_single, ← List.append_assoc, h.calls_eq]
  simp only [Assembly.calls, Assembly.settle, Frame.calls, Frame.add, hnone, callsOf,
    Option.elim_some, Option.elim_none, hcalls, List.append_nil, List.append_assoc]

/-! ## Frames that end with an operand of their own -/

/-- Nothing that comes next joins a row of characters, and none has been joined. -/
structure Frame.Closed (f : Frame) : Prop where
  apart : f.Apart
  not_endsOpen : ¬Piece.EndsOpen f.pieces

theorem Frame.closed_of_loose {calls : List Instr} (hloose : f.loose = some t)
    (ht : t.pieces = [.operand calls]) : f.Closed := by
  have hsingle : Piece.single t.pieces = .operand calls := by rw [ht]; rfl
  constructor
  · intro s _ t' ht'
    obtain rfl : t = t' := Option.some.inj (hloose.symm.trans ht')
    apply Tree.calls_seq
    rw [hsingle, Piece.push_operand]
  · rw [pieces, sequence, hloose]
    intro h
    cases hs : f.begun with
    | none =>
      rw [hs] at h
      obtain ⟨cs, qs, h⟩ := h
      cases ht.symm.trans h
    | some s =>
      rw [hs] at h
      obtain ⟨cs, qs, h⟩ := h
      have hpush : Piece.push s.pieces (Piece.single t.pieces) = .run cs :: qs := h
      rw [hsingle, Piece.push_operand] at hpush
      cases hpush

theorem Frame.closed_of_empty (hbegun : f.begun = none) (hloose : f.loose = none) : f.Closed := by
  constructor
  · intro s hs
    rw [hbegun] at hs
    cases hs
  · intro h
    rw [pieces, sequence, hbegun, hloose] at h
    obtain ⟨cs, qs, h⟩ := h
    cases h

/-- A token that is no plain character ends with an operand of its own, or begins a sequence. -/
theorem closed_of_covers {k : Lexeme.Kind} {tok : Token} (h : Lexeme.Covers k [tok])
    (hplain : ∀ c, tok ≠ .operand (.plain c)) (hz : z.step tok = some z') : z'.here.Closed := by
  generalize hts : [tok] = ts at h
  cases h with
  | text c cs =>
    cases cs with
    | nil =>
      cases hts
      exact absurd rfl (hplain c)
    | cons d cs => cases hts
  | escape c =>
    cases hts
    cases hz
    exact Frame.closed_of_loose rfl rfl
  | any =>
    cases hts
    cases hz
    exact Frame.closed_of_loose rfl rfl
  | set ranges inverted =>
    cases hts
    cases hz
    exact Frame.closed_of_loose rfl rfl
  | openGroup report =>
    cases hts
    cases hz
    exact Frame.closed_of_empty rfl rfl
  | closeGroup =>
    cases hts
    rw [Assembly.step, Assembly.close] at hz
    split at hz
    · cases hz
    · obtain ⟨t, -, rfl⟩ := Option.map_eq_some_iff.1 hz
      exact Frame.closed_of_loose rfl rfl
  | bar =>
    cases hts
    obtain ⟨t, -, rfl⟩ := Option.map_eq_some_iff.1 hz
    exact Frame.closed_of_empty rfl rfl
  | unary op =>
    cases hts
    obtain ⟨t, -, rfl⟩ := Option.map_eq_some_iff.1 hz
    exact Frame.closed_of_loose rfl rfl
  | bounds min max =>
    cases hts
    obtain ⟨t, -, rfl⟩ := Option.map_eq_some_iff.1 hz
    exact Frame.closed_of_loose rfl rfl

/-! ## Texts -/

/-- A tree for a text. -/
def word (c : Char) : List Char → Tree
  | [] => .plain c
  | d :: cs => .seq (.plain c) (word d cs)

theorem pieces_word (c : Char) (cs : List Char) : (word c cs).pieces = [.run (c :: cs)] := by
  induction cs generalizing c with
  | nil => rfl
  | cons d cs ih =>
    rw [word, Tree.pieces, ih]
    rfl

/-- Whether a text is one operand or many, the sequence is the same. -/
theorem run_plains (z : Assembly) (c : Char) (cs : List Char) : ∃ f : Frame,
    z.run (Lexeme.plains (c :: cs)) = some { z with here := f } ∧
      f.alternatives = z.here.alternatives ∧ f.pieces = (z.here.add (word c cs)).pieces := by
  induction cs generalizing z c with
  | nil => exact ⟨_, rfl, rfl, rfl⟩
  | cons d cs ih =>
    obtain ⟨f, hrun, halt, hpieces⟩ := ih { z with here := z.here.add (.plain c) } d
    refine ⟨f, hrun, halt, hpieces.trans ?_⟩
    have hone : (Tree.plain c).pieces = [.run [c]] := rfl
    rw [Frame.pieces_add _ _ (by rw [pieces_word]; rfl), Frame.pieces_add _ _ (by rw [hone]; rfl),
      Frame.pieces_add _ _ (by rw [pieces_word]; rfl), pieces_word, pieces_word, hone]
    exact Piece.push_run_run _ _ _

/-- What is settled depends on the pieces of the sequence only. -/
theorem Follows.congr {f' : Frame} (h : Follows p E { z with here := f' })
    (halt : f.alternatives = f'.alternatives) (hpieces : f.pieces = f'.pieces) :
    Follows p E { z with here := f } := by
  have hempty : ∀ f : Frame, f.sequence.isSome = true ↔ f.pieces ≠ [] := by
    intro f
    rw [Frame.pieces]
    cases f.sequence with
    | none => simp
    | some t => simp [t.pieces_ne_nil]
  have hbegun : f'.settle.begun.isSome = f.settle.begun.isSome := by
    show f'.sequence.isSome = f.sequence.isSome
    rw [Bool.eq_iff_iff, hempty, hempty, hpieces]
  obtain ⟨⟨halt', hbegun', hloose⟩, houter, hcalls⟩ := h
  refine ⟨⟨?_, hbegun'.trans hbegun, hloose⟩, houter, hcalls.trans ?_⟩
  · exact halt'.trans (congrArg Option.isSome halt).symm
  · show callsAround z.outer ++ f'.settle.calls = callsAround z.outer ++ f.settle.calls
    rw [Frame.calls_settle, Frame.calls_settle, halt, hpieces]

/-! ## Lexemes -/

/-- The reader and the assembly are at the same point as far as the next tokens need to know. -/
structure Ready (p : Progress) (E : List Instr) (z : Assembly) (toks : List Token) : Prop where
  sign : SignNext toks → Tracks p E z
  rest : ¬SignNext toks → Follows p E z
  /-- A row of characters goes on only because a sign applies to the next one. -/
  row : Piece.EndsOpen z.here.pieces → ∀ d toks', toks = .operand (.plain d) :: toks' →
    SignNext toks'

/-- Both go on and are ready for what comes next, or neither can. -/
def GoOn (E : List Instr) (z : Assembly) (ts toks : List Token) :
    List Stretch × Except (Fault × Nat) Progress → Prop
  | (stretches, .ok p') => ∃ z', z.run ts = some z' ∧ Ready p' (E ++ expandAll stretches) z' toks
  | (_, .error _) => z.run ts = none

theorem Agrees.goOn {result : List Stretch × Except (Fault × Nat) Progress}
    (h : Agrees E z ts result) (hclosed : ∀ z', z.run ts = some z' → z'.here.Closed) :
    GoOn E z ts toks result := by
  obtain ⟨stretches, p | fault⟩ := result
  · exact h
  · obtain ⟨z', hrun, htracks⟩ := h
    obtain ⟨hapart, hends⟩ := hclosed z' hrun
    exact ⟨z', hrun, fun _ => htracks, fun _ => htracks.follows hapart, fun hopen => absurd hopen hends⟩

theorem not_signNext_cons {tok : Token} (h : tok.isSign = false) : ¬SignNext (tok :: toks) := by
  intro hnext
  obtain ⟨tok', htok, hyes⟩ := hnext
  obtain rfl : tok = tok' := Option.some.inj htok
  rw [h] at hyes
  cases hyes

theorem Ready.text {c : Char} {cs : List Char}
    (h : Ready p E z (Lexeme.plains (c :: cs) ++ toks))
    (hl : l.kind = Lexeme.textOperand (c :: cs)) (hfits : Lexeme.Fits (Lexeme.plains (c :: cs)) toks) :
    GoOn E z (Lexeme.plains (c :: cs)) toks (p.step l) := by
  have hcalls : (word c cs).calls = [.text (String.ofList (c :: cs))] := by
    rw [Tree.calls, pieces_word]
    rfl
  have hfollows : Follows p E z := h.rest (not_signNext_cons rfl)
  obtain ⟨stretches, p', hstep, htracks⟩ := hfollows.operand hl hcalls
  obtain ⟨f, hrun, halt, hpieces⟩ := run_plains z c cs
  rw [hstep]
  refine ⟨{ z with here := f }, hrun, fun hsign => ?_, fun hno => ?_, fun _ d toks' heq => ?_⟩
  · -- only one character may have a sign after it
    have hone : ¬1 < (Lexeme.plains (c :: cs)).length := fun hlt => hfits.sign hlt hsign
    cases cs with
    | nil =>
      cases hrun
      exact htracks
    | cons d cs => exact absurd (by simp [Lexeme.plains]) hone
  · -- the characters before, if any, are no row that this one goes on
    have hends : ¬Piece.EndsOpen z.here.pieces := by
      intro hopen
      have hnext := h.row hopen c _ rfl
      cases cs with
      | nil => exact hno hnext
      | cons d cs => exact not_signNext_cons rfl hnext
    refine (htracks.follows ?_).congr halt hpieces
    intro s hs t ht
    obtain rfl : word c cs = t := Option.some.inj ht
    have hs : z.here.sequence = some s := hs
    rw [Frame.pieces, hs] at hends
    exact Tree.calls_seq (Piece.push_of_not_endsOpen hends _)
  · have hlast : ∃ e, (Lexeme.plains (c :: cs)).getLast? = some (.operand (.plain e)) := by
      rw [Lexeme.plains, List.getLast?_map]
      cases hcs : (c :: cs).getLast? with
      | none => cases List.getLast?_eq_none_iff.1 hcs
      | some e => exact ⟨e, rfl⟩
    obtain ⟨e, he⟩ := hlast
    exact hfits.plain e d toks' he heq

/-- What one lexeme does. -/
theorem Ready.step (h : Ready p E z (ts ++ toks)) (hl : Lexeme.Covers l.kind ts)
    (hfits : Lexeme.Fits ts toks) : GoOn E z ts toks (p.step l) := by
  generalize hk : l.kind = k at hl
  have hclosed : ∀ tok, ts = [tok] → (∀ c, tok ≠ .operand (.plain c)) →
      ∀ z', z.run ts = some z' → z'.here.Closed := by
    rintro tok rfl hplain z' hz
    exact closed_of_covers hl hplain ((run_singleton z tok).symm.trans hz)
  have hoperand : ∀ {instr t}, k = .operand instr → ts = [.operand t] → t.calls = [instr] →
      (∀ c, t ≠ .plain c) → GoOn E z ts toks (p.step l) := by
    rintro instr t rfl rfl hcalls hplain
    have hfollows : Follows p E z := h.rest (not_signNext_cons rfl)
    obtain ⟨stretches, p', hstep, htracks⟩ := hfollows.operand hk hcalls
    rw [hstep]
    have hagrees : Agrees E z [.operand t] (stretches, .ok p') := ⟨_, rfl, htracks⟩
    refine hagrees.goOn (hclosed _ rfl fun c heq => hplain c ?_)
    cases heq
    rfl
  cases hl with
  | text c cs => exact h.text hk hfits
  | escape c => exact hoperand rfl rfl rfl nofun
  | any => exact hoperand rfl rfl rfl nofun
  | set ranges inverted => exact hoperand rfl rfl rfl nofun
  | openGroup report =>
    have hfollows : Follows p E z := h.rest (not_signNext_cons rfl)
    exact (hfollows.openGroup hk).goOn (hclosed _ rfl nofun)
  | closeGroup =>
    have hfollows : Follows p E z := h.rest (not_signNext_cons rfl)
    exact (hfollows.closeGroup hk).goOn (hclosed _ rfl nofun)
  | bar =>
    have hfollows : Follows p E z := h.rest (not_signNext_cons rfl)
    exact (hfollows.bar hk).goOn (hclosed _ rfl nofun)
  | unary op =>
    have htracks : Tracks p E z := h.sign ⟨_, rfl, rfl⟩
    have hagrees : Agrees E z [.unary op] (p.sign l [.single (.unary op) l.stop]) :=
      htracks.sign (g := .unary op) (fun t => rfl) rfl
    unfold Progress.step
    rw [hk]
    exact hagrees.goOn (hclosed _ rfl nofun)
  | bounds min max =>
    have htracks : Tracks p E z := h.sign ⟨_, rfl, rfl⟩
    have hagrees : Agrees E z [.bounds min max] (p.sign l (repetition min max l.stop)) :=
      htracks.sign (g := .times min max)
        (fun t => by rw [expandAll_repetition, Tree.calls_times]) rfl
    unfold Progress.step
    rw [hk]
    exact hagrees.goOn (hclosed _ rfl nofun)

/-! ## Whole patterns -/

/-- The reader and the assembly come to an end with the same tree, or neither does. -/
def Ends (E : List Instr) (script : Script) : Option Tree → Prop
  | some t => script.fault = none ∧ E ++ script.instrs = t.calls
  | none => script.fault ≠ none

/-- What the end of a pattern does. -/
theorem Follows.finish (h : Follows p E z) : Ends E p.finish z.finish := by
  have hend := h.endSequence rfl
  have halt : z.settle.here.alternation = z.here.alternation := z.here.alternation_settle
  have houter : List.Forall₂ KnowsOuter p.settle.2.groups z.outer := h.outer
  rw [halt] at hend
  unfold Progress.finish Assembly.finish
  simp only
  cases ht : z.here.alternation with
  | none =>
    rw [ht] at hend
    have hno : ¬p.settle.2.level.begun = true := by simp [hend]
    rw [if_neg hno]
    cases z.outer <;> exact Option.some_ne_none _
  | some t =>
    rw [ht] at hend
    obtain ⟨hbegun, hcalls⟩ := hend
    rw [if_pos hbegun]
    cases hz : z.outer with
    | nil =>
      have hz' : z.settle.outer = [] := hz
      rw [hz] at houter
      rw [List.forall₂_nil_right_iff.1 houter]
      rw [hz'] at hcalls
      refine ⟨rfl, ?_⟩
      show E ++ expandAll (p.settle.1 ++ p.settle.2.endSequence) = _
      rw [expandAll_append, ← List.append_assoc]
      exact hcalls
    | cons o outer =>
      rw [hz] at houter
      cases hgroups : p.settle.2.groups with
      | nil =>
        rw [hgroups] at houter
        cases houter
      | cons g groups => exact Option.some_ne_none _

theorem not_signNext_nil : ¬SignNext [] := by
  intro h
  obtain ⟨tok, htok, -⟩ := h
  cases htok

/-- Lexemes are read to the tree that their tokens are put together to, if there is one. -/
theorem Ready.read {lexemes : List Lexeme} (h : Ready p E z toks)
    (hcovers : Lexeme.CoversAll lexemes toks) :
    Ends E (p.read lexemes) ((z.run toks).bind Assembly.finish) := by
  induction hcovers generalizing p E z with
  | nil => exact (h.rest not_signNext_nil).finish
  | @cons l lexemes ts toks hcovers hfits _ ih =>
    have hstep := h.step hcovers hfits
    rw [Assembly.run_append, Progress.read]
    generalize p.step l = result at hstep ⊢
    obtain ⟨stretches, fault | p'⟩ := result
    · have hnone : z.run ts = none := hstep
      rw [hnone]
      exact Option.some_ne_none _
    · obtain ⟨z', hrun, hready⟩ := hstep
      rw [hrun, Option.bind_some]
      have hrest := ih hready
      cases ht : (z'.run toks).bind Assembly.finish with
      | none =>
        rw [ht] at hrest
        exact hrest
      | some t =>
        rw [ht] at hrest
        refine ⟨hrest.1, ?_⟩
        rw [← hrest.2, List.append_assoc]
        exact congrArg (E ++ ·) (expandAll_append stretches _)

/-- A pattern is read to the tree that its tokens are put together to, if there is one. -/
theorem read_of_tokenized {text : List Char} {ks : List Glyph.Kind} (hks : Spells text ks)
    (htoks : Tokenized ks toks) : Ends [] (Script.ofChars text) (assemble toks) := by
  have hcovers := Lexeme.coversAll_of_tokenized (Glyph.ofChars 0 text)
    ((kinds_ofChars hks 0).symm ▸ htoks)
  have htracks : Tracks {} [] {} := ⟨⟨rfl, rfl, rfl⟩, .nil, rfl⟩
  have hclosed : Frame.Closed {} := Frame.closed_of_empty rfl rfl
  have hready : Ready {} [] {} toks :=
    ⟨fun _ => htracks, fun _ => htracks.follows hclosed.apart,
      fun hopen => absurd hopen hclosed.not_endsOpen⟩
  exact hready.read hcovers

end Pattern

end LongestMatch
