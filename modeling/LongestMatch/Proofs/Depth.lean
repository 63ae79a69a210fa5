import LongestMatch.Proofs.Effects

/-!
# A pattern works on top of the stack

The builder carries a pattern out on a stack that may hold automata already. How many operands the
instructions find and leave does not depend on what these are: it is the effect of the instructions
on a stack of which nothing counts but its depth (`shape`). The reader knows that depth at every
point (`Progress.depth`): each step that it takes leads from the depth before to the one after
(`reaches_step`), and so the instructions of any text, well-formed or cut short by a fault, never
reach below the operands that they have pushed (`moves_read`). A builder that has as many operands as
the instructions need can refuse only because of its groups (`kept_run`).

* `ofPattern_keeps_stack` — carrying a pattern out adds one automaton, or fails with a fault of the
  pattern; what was on the stack before stays there.
-/

namespace LongestMatch

namespace Pattern

open Stretch (expandAll expandAll_append)

/-! ## Depths -/

/-- Nothing counts of an operand but that it is there. -/
def shape : Algebra Unit :=
  ⟨fun _ _ => (), (), fun _ => (), fun _ _ => (), fun _ _ => (), fun _ _ => (), fun _ => ()⟩

/-- Instructions that find `n` operands leave `m`, and do not reach below. -/
def Moves (instrs : List Instr) (n m : Nat) : Prop :=
  shape.effects (List.replicate n ()) instrs = some (List.replicate m ())

variable {instrs instrs' : List Instr} {n m k : Nat}

theorem Moves.append (h : Moves instrs n k) (h' : Moves instrs' k m) :
    Moves (instrs ++ instrs') n m := by
  unfold Moves at *
  rw [shape.effects_append, h]
  exact h'

theorem moves_nil (n : Nat) : Moves [] n n :=
  rfl

theorem moves_or (n : Nat) : Moves [.or] (n + 2) (n + 1) :=
  rfl

theorem moves_seq (n : Nat) : Moves [.seq] (n + 2) (n + 1) :=
  rfl

theorem moves_unary (op : Unary) (n : Nat) : Moves [.unary op] (n + 1) (n + 1) :=
  rfl

theorem moves_group (n : Nat) : Moves [.group] (n + 1) (n + 1) :=
  rfl

/-- A repetition puts one operand in the place of the one on top. -/
theorem moves_copies {ks : List Glyph.Kind} {min : Nat} {max : Option Nat} (h : Bounds ks min max)
    (n : Nat) : Moves (copies min max) (n + 1) (n + 1) :=
  shape.effects_copies h.inOrder () (List.replicate n ())

/-! ## Lexemes that can be read -/

/-- The instruction pushes an operand. -/
def Instr.Pushes : Instr → Prop
  | set _ _ => True
  | any => True
  | text _ => True
  | _ => False

theorem Instr.Pushes.moves {instr : Instr} (h : instr.Pushes) (n : Nat) :
    Moves [instr] n (n + 1) := by
  cases instr with
  | set ranges inverted => rfl
  | any => rfl
  | text s => rfl
  | _ => exact h.elim

namespace Lexeme

/-- An operand is pushed, and bounds are those of a repetition. -/
def Kind.Sound : Kind → Prop
  | .operand instr => instr.Pushes
  | .bounds min max => ∃ ks, Bounds ks min max
  | _ => True

variable {g : Glyph} {rest glyphs : List Glyph} {l : Lexeme}

theorem sound_textAfter (g : Glyph) (c : Char) (rest : List Glyph) :
    (textAfter g c rest).1.kind.Sound := by
  unfold textAfter
  simp only
  split
  · trivial
  · trivial

theorem sound_ofPlain (g : Glyph) (c : Char) (rest : List Glyph) :
    (ofPlain g c rest).1.kind.Sound := by
  unfold ofPlain
  split
  · trivial
  · split
    · cases hread : boundsAfter g.start g.stop rest with
      | error e => trivial
      | ok r =>
        obtain ⟨⟨min, max⟩, stop, after⟩ := r
        obtain ⟨ls, hbounds, -⟩ := bounds_of_boundsAfter hread
        exact ⟨ls, hbounds⟩
    · cases hread : classAfter g.start rest with
      | error e => trivial
      | ok r =>
        obtain ⟨instr, stop, after⟩ := r
        obtain ⟨ls, rs, inverted, rfl, -⟩ := class_of_classAfter hread
        trivial
    · split
      · trivial
      · split
        · trivial
        · trivial
    · trivial
    · trivial
    · trivial
    · exact sound_textAfter g _ rest

theorem sound_next (g : Glyph) (rest : List Glyph) : (next g rest).1.kind.Sound := by
  unfold next
  split
  · exact sound_ofPlain g _ rest
  · trivial
  · trivial

theorem sound_ofGlyphs (glyphs : List Glyph) : ∀ l ∈ ofGlyphs glyphs, l.kind.Sound := by
  induction hn : glyphs.length using Nat.strongRecOn generalizing glyphs with
  | ind n ih =>
    cases glyphs with
    | nil =>
      rw [ofGlyphs]
      exact List.forall_mem_nil _
    | cons g rest =>
      rw [ofGlyphs]
      have hlt : (next g rest).2.length < n := hn ▸ Nat.lt_succ_of_le (length_next g rest)
      exact List.forall_mem_cons.2 ⟨sound_next g rest, ih _ hlt _ rfl⟩

end Lexeme

/-! ## What the reader knows of the depth -/

/-- How many operands of an alternation are on the stack. -/
def Level.depth (level : Level) : Nat :=
  level.alternatives.toNat + level.begun.toNat + level.loose.toNat

/-- How many operands of what the open groups interrupt are on the stack. -/
def OpenGroup.depths : List OpenGroup → Nat
  | [] => 0
  | g :: groups => g.outer.depth + depths groups

namespace Progress

/-- How many operands are on the stack. -/
def depth (p : Progress) : Nat :=
  OpenGroup.depths p.groups + p.level.depth

/-- What an open group interrupts is settled. -/
def Sound (p : Progress) : Prop :=
  ∀ g ∈ p.groups, g.outer.loose = false

/-- A step leads from a depth to the one that the reader knows then, or ends with some depth. -/
def Reaches (n : Nat) : List Stretch × Except (Fault × Nat) Progress → Prop
  | (stretches, .ok p) => p.Sound ∧ Moves (expandAll stretches) n p.depth
  | (stretches, .error _) => ∃ m, Moves (expandAll stretches) n m

variable {p : Progress} {l : Lexeme} {stretches joined : List Stretch}

theorem Reaches.after {result : List Stretch × Except (Fault × Nat) Progress}
    (h : Moves (expandAll joined) n k) (h' : Reaches k result) :
    Reaches n (joined ++ result.1, result.2) := by
  obtain ⟨stretches, fault | p⟩ := result
  · obtain ⟨m, hm⟩ := h'
    exact ⟨m, expandAll_append joined stretches ▸ h.append hm⟩
  · exact ⟨h'.1, expandAll_append joined stretches ▸ h.append h'.2⟩

/-- Without instructions a fault leaves everything where it is. -/
theorem reaches_fault (n : Nat) (fault : Fault × Nat) : Reaches n ([], .error fault) :=
  ⟨n, moves_nil n⟩

theorem moves_settle (p : Progress) : Moves (expandAll p.settle.1) p.depth p.settle.2.depth := by
  obtain ⟨⟨alternatives, begun, loose⟩, groups, position⟩ := p
  cases loose with
  | false => exact moves_nil _
  | true =>
    cases begun with
    | false => exact moves_nil _
    | true => exact moves_seq _

theorem loose_settle (p : Progress) : p.settle.2.level.loose = false := by
  unfold settle
  split
  · rfl
  · next hno => simpa using hno

theorem groups_settle (p : Progress) : p.settle.2.groups = p.groups := by
  unfold settle
  split
  · rfl
  · rfl

/-- A settled sequence is joined to the earlier alternatives: one operand of the level is left. -/
theorem moves_endSequence (hloose : p.level.loose = false) (hbegun : p.level.begun = true) :
    Moves (expandAll p.endSequence) p.depth
      (OpenGroup.depths p.groups + 1) := by
  obtain ⟨⟨alternatives, begun, loose⟩, groups, position⟩ := p
  obtain rfl : loose = false := hloose
  obtain rfl : begun = true := hbegun
  cases alternatives with
  | false => exact moves_nil _
  | true => exact moves_or _

theorem reaches_close (hp : p.Sound) (hloose : p.level.loose = false) :
    Reaches p.depth (p.close l) := by
  have hend := moves_endSequence (p := p) hloose
  unfold close
  split
  · split
    · next hbegun => exact ⟨_, hend hbegun⟩
    · exact reaches_fault _ _
  · next g outer hgroups =>
    split
    · next hbegun =>
      unfold Sound at hp
      rw [hgroups, List.forall_mem_cons] at hp
      obtain ⟨hg, houter⟩ := hp
      refine ⟨houter, ?_⟩
      have hend := hend hbegun
      -- the group is one more operand of the level that it interrupted
      have hdepth : OpenGroup.depths p.groups + 1 =
          depth { level := { g.outer with loose := true }, groups := outer, position := l.stop } := by
        rw [hgroups, OpenGroup.depths, depth, Level.depth, Level.depth, hg]
        simp only [Bool.toNat_false, Bool.toNat_true]
        omega
      rw [expandAll_append]
      rw [hdepth] at hend
      refine hend.append ?_
      rw [← hdepth]
      cases g.report with
      | false => exact moves_nil _
      | true => exact moves_group _
    · exact reaches_fault _ _

theorem reaches_proceed (hp : p.Sound) (hloose : p.level.loose = false) (hl : l.kind.Sound) :
    Reaches p.depth (p.proceed l) := by
  unfold proceed
  split
  · next instr hk =>
    rw [hk] at hl
    refine ⟨hp, ?_⟩
    have hdepth : depth { p with level := { p.level with loose := true }, position := l.stop } =
        p.depth + 1 := by
      rw [depth, depth, Level.depth, Level.depth, hloose]
      rfl
    rw [hdepth]
    exact Instr.Pushes.moves hl _
  · next report hk =>
    refine ⟨List.forall_mem_cons.2 ⟨hloose, hp⟩, ?_⟩
    have hdepth : depth
        { level := {}, groups := ⟨p.level, report, l.start⟩ :: p.groups, position := l.stop } =
          p.depth := by
      rw [depth, OpenGroup.depths, depth, Nat.add_comm p.level.depth]
      rfl
    rw [hdepth]
    exact moves_nil _
  · split
    · next hbegun => exact ⟨hp, moves_endSequence hloose hbegun⟩
    · exact reaches_fault _ _
  · exact reaches_close hp hloose
  · exact reaches_fault _ _
  · exact ⟨hp, moves_nil _⟩

/-- A sign replaces the operand that it follows. -/
theorem reaches_sign (hp : p.Sound) (h : ∀ n, Moves (expandAll stretches) (n + 1) (n + 1)) :
    Reaches p.depth (p.sign l stretches) := by
  unfold sign
  split
  · next hloose =>
    refine ⟨hp, ?_⟩
    show Moves (expandAll stretches) p.depth p.depth
    rw [depth, Level.depth, hloose]
    exact h _
  · exact reaches_fault _ _

/-- One lexeme. -/
theorem reaches_step (hp : p.Sound) (hl : l.kind.Sound) : Reaches p.depth (p.step l) := by
  by_cases hsettles : l.kind.Settles
  · rw [step_of_settles hsettles]
    refine Reaches.after p.moves_settle (reaches_proceed ?_ p.loose_settle hl)
    rwa [Sound, groups_settle]
  · unfold step
    generalize hk : l.kind = kind at hl hsettles
    cases kind with
    | unary op => exact reaches_sign hp fun n => moves_unary op n
    | bounds min max =>
      obtain ⟨ks, hbounds⟩ := hl
      refine reaches_sign hp fun n => ?_
      rw [expandAll_repetition]
      exact moves_copies hbounds n
    | badBounds fault position =>
      simp only
      split
      · exact reaches_fault _ _
      · exact reaches_fault _ _
    | _ => exact absurd trivial hsettles

/-- The end of the pattern. Without a fault one operand is left. -/
theorem moves_finish (p : Progress) :
    ∃ m, Moves p.finish.instrs p.depth m ∧ (p.finish.fault = none → m = 1) := by
  unfold finish
  simp only
  split
  · next hbegun =>
    have hend := moves_endSequence p.loose_settle hbegun
    refine ⟨OpenGroup.depths p.settle.2.groups + 1, ?_, fun hfault => ?_⟩
    · show Moves (expandAll (p.settle.1 ++ p.settle.2.endSequence)) _ _
      rw [expandAll_append]
      exact p.moves_settle.append hend
    · have hgroups : p.settle.2.groups = [] := by simpa using hfault
      rw [hgroups]
      rfl
  · exact ⟨_, p.moves_settle, fun hfault => by cases hfault⟩

/-- All lexemes that are still to be read. -/
theorem moves_read (hp : p.Sound) (ls : List Lexeme) (hls : ∀ l ∈ ls, l.kind.Sound) :
    ∃ m, Moves (p.read ls).instrs p.depth m ∧ ((p.read ls).fault = none → m = 1) := by
  induction ls generalizing p with
  | nil => exact p.moves_finish
  | cons l ls ih =>
    obtain ⟨hl, hls⟩ := List.forall_mem_cons.1 hls
    have hstep := reaches_step hp hl
    unfold read
    generalize p.step l = result at hstep ⊢
    obtain ⟨stretches, fault | p'⟩ := result
    · obtain ⟨m, hm⟩ := hstep
      exact ⟨m, hm, fun hfault => by cases hfault⟩
    · obtain ⟨m, hm, hfault⟩ := ih hstep.1 hls
      refine ⟨m, ?_, hfault⟩
      show Moves (expandAll (stretches ++ (p'.read ls).stretches)) _ _
      rw [expandAll_append]
      exact hstep.2.append hm

end Progress

/-- The instructions of any text need no operands. -/
theorem moves_ofChars (pattern : List Char) : ∃ m, Moves (Script.ofChars pattern).instrs 0 m ∧
    ((Script.ofChars pattern).fault = none → m = 1) :=
  Progress.moves_read (p := {}) (List.forall_mem_nil _) _ (Lexeme.sound_ofGlyphs _)

/-! ## The builder -/

/-- What was on the stack is still there, below as many operands as are said, or below some if the
operands had too many groups. -/
def Kept (base : List Nfa) (depth : Nat) : Builder × Option Error → Prop
  | (b, none) => ∃ extra, b.stack = extra ++ base ∧ extra.length = depth
  | (b, some error) => error = .tooManyGroups ∧ ∃ extra, b.stack = extra ++ base

section Kept

variable {b : Builder} {base extra rest : List Nfa} {xs ys : List Unit} {instr : Instr}

theorem kept_pushResult (hlength : rest.length = n) (result : Except GroupOverflow Nfa) :
    Kept base (n + 1) (b.pushResult (rest ++ base) result) := by
  rcases result with ⟨⟨⟩⟩ | nfa
  · exact ⟨rfl, rest, rfl⟩
  · exact ⟨nfa :: rest, rfl, congrArg (· + 1) hlength⟩

theorem kept_unary {op : Nfa → Except GroupOverflow Nfa} (hstack : b.stack = extra ++ base)
    (hlength : extra.length = n + 1) : Kept base (n + 1) (b.unary op) := by
  obtain ⟨top, rest, rfl⟩ := List.exists_cons_of_length_eq_add_one hlength
  unfold Builder.unary
  rw [hstack]
  exact kept_pushResult (Nat.succ.inj hlength) _

theorem kept_binary {op : Nfa → Nfa → Except GroupOverflow Nfa} (hstack : b.stack = extra ++ base)
    (hlength : extra.length = n + 2) : Kept base (n + 1) (b.binary op) := by
  obtain ⟨right, rest, rfl⟩ := List.exists_cons_of_length_eq_add_one hlength
  obtain ⟨left, rest, rfl⟩ := List.exists_cons_of_length_eq_add_one (Nat.succ.inj hlength)
  unfold Builder.binary
  rw [hstack]
  exact kept_pushResult (Nat.succ.inj (Nat.succ.inj hlength)) _

theorem kept_push {nfa : Nfa} (hstack : b.stack = extra ++ base) (hlength : extra.length = n) :
    Kept base (n + 1) (b.push nfa) := by
  refine ⟨nfa :: extra, ?_, congrArg (· + 1) hlength⟩
  rw [hstack]
  rfl

/-- An instruction that finds its operands is refused only because of their groups. -/
theorem kept_exec (h : shape.effect xs instr = some ys) (hstack : b.stack = extra ++ base)
    (hlength : extra.length = xs.length) : Kept base ys.length (Builder.exec b instr) := by
  cases instr with
  | set ranges inverted =>
    cases h
    exact kept_push hstack hlength
  | any =>
    cases h
    exact kept_push hstack hlength
  | text s =>
    cases h
    exact kept_push hstack hlength
  | swap =>
    rcases xs with _ | ⟨x, _ | ⟨y, xs⟩⟩
    · cases h
    · cases h
    · cases h
      obtain ⟨top, rest, rfl⟩ := List.exists_cons_of_length_eq_add_one hlength
      obtain ⟨second, rest, rfl⟩ := List.exists_cons_of_length_eq_add_one (Nat.succ.inj hlength)
      show Kept base _ b.swap
      unfold Builder.swap
      rw [hstack]
      exact ⟨second :: top :: rest, rfl, hlength⟩
  | dup =>
    rcases xs with _ | ⟨x, xs⟩
    · cases h
    · cases h
      obtain ⟨top, rest, rfl⟩ := List.exists_cons_of_length_eq_add_one hlength
      show Kept base _ b.dup
      unfold Builder.dup
      rw [hstack]
      exact kept_push hstack hlength
  | or =>
    rcases xs with _ | ⟨x, _ | ⟨y, xs⟩⟩
    · cases h
    · cases h
    · cases h
      exact kept_binary hstack hlength
  | seq =>
    rcases xs with _ | ⟨x, _ | ⟨y, xs⟩⟩
    · cases h
    · cases h
    · cases h
      exact kept_binary hstack hlength
  | unary op =>
    rcases xs with _ | ⟨x, xs⟩
    · cases h
    · cases h
      exact kept_unary hstack hlength
  | group =>
    rcases xs with _ | ⟨x, xs⟩
    · cases h
    · cases h
      exact kept_unary hstack hlength

theorem kept_run {instrs : List Instr} (h : shape.effects xs instrs = some ys)
    (hstack : b.stack = extra ++ base) (hlength : extra.length = xs.length) :
    Kept base ys.length (Machine.run Builder.exec b instrs) := by
  induction instrs generalizing b extra xs with
  | nil =>
    cases h
    exact ⟨extra, hstack, hlength⟩
  | cons instr instrs ih =>
    rw [shape.effects_cons, Option.bind_eq_some_iff] at h
    obtain ⟨zs, hinstr, hinstrs⟩ := h
    have hexec := kept_exec hinstr hstack hlength
    rw [Machine.run]
    generalize Builder.exec b instr = result at hexec ⊢
    obtain ⟨b', _ | error⟩ := result
    · obtain ⟨extra', hstack', hlength'⟩ := hexec
      exact ih hinstrs hstack' hlength'
    · exact hexec

/-- Stretches are refused as their instructions are, but in the words of the pattern. -/
theorem kept_runStretches (pattern : List Char) {stretches : List Stretch}
    (h : shape.effects xs (expandAll stretches) = some ys) (hstack : b.stack = extra ++ base)
    (hlength : extra.length = xs.length) :
    (∃ b' extra', Machine.runStretches Builder.exec pattern b stretches = (b', none) ∧
      b'.stack = extra' ++ base ∧ extra'.length = ys.length) ∨
    ∃ b' extra' rejection, Machine.runStretches Builder.exec pattern b stretches =
      (b', some (.pattern rejection)) ∧ b'.stack = extra' ++ base := by
  induction stretches generalizing b extra xs with
  | nil =>
    cases h
    exact .inl ⟨b, extra, rfl, hstack, hlength⟩
  | cons stretch stretches ih =>
    have hexpand : expandAll (stretch :: stretches) = stretch.expand ++ expandAll stretches :=
      List.flatMap_cons
    rw [hexpand, shape.effects_append, Option.bind_eq_some_iff] at h
    obtain ⟨zs, hstretch, hrest⟩ := h
    have hrun := kept_run hstretch hstack hlength
    rw [Stretch.expand, ← Machine.runTimes_eq] at hrun
    rw [Machine.runStretches]
    generalize Machine.runTimes Builder.exec stretch.instrs b stretch.times = result at hrun ⊢
    obtain ⟨b', _ | error⟩ := result
    · obtain ⟨extra', hstack', hlength'⟩ := hrun
      exact ih hrest hstack' hlength'
    · obtain ⟨rfl, extra', hstack'⟩ := hrun
      exact .inr ⟨b', extra', _, rfl, hstack'⟩

end Kept

/-- A pattern is carried out on a stack that may hold automata already. Either one automaton is added
to them, or the pattern is rejected, and then whatever else is on the stack lies above them. -/
theorem runPattern_keeps_stack (b : Builder) (pattern : String) :
    (∃ b' nfa, Machine.runPattern Builder.exec b pattern = (b', none) ∧
      b'.stack = nfa :: b.stack) ∨
    ∃ b' extra rejection, Machine.runPattern Builder.exec b pattern =
      (b', some (.pattern rejection)) ∧ b'.stack = extra ++ b.stack := by
  obtain ⟨m, hmoves, hfault⟩ := moves_ofChars pattern.toList
  have hstack : b.stack = [] ++ b.stack := rfl
  have hrun := kept_runStretches pattern.toList hmoves hstack rfl
  unfold Machine.runPattern
  simp only
  rcases hrun with ⟨b', extra, hrun, hstack, hlength⟩ | ⟨b', extra, rejection, hrun, hstack⟩
  · rw [hrun]
    cases hscript : (Script.ofChars pattern.toList).fault with
    | some fault => exact .inr ⟨b', extra, _, rfl, hstack⟩
    | none =>
      obtain rfl : m = 1 := hfault hscript
      obtain ⟨nfa, rfl⟩ := List.length_eq_one_iff.1 hlength
      exact .inl ⟨b', nfa, rfl, hstack⟩
  · rw [hrun]
    exact .inr ⟨b', extra, rejection, rfl, hstack⟩

end Pattern

namespace Nfa

open Pattern (Builder Machine)

/-- Whatever is on the stack, carrying a pattern out leaves it where it is: one automaton is put on
top, or the pattern is rejected. So making the automaton of a pattern can only fail because the
pattern is rejected. -/
theorem ofPattern_keeps_stack (pattern : String) :
    (∀ b : Builder,
      (∃ b' nfa, Machine.runPattern Builder.exec b pattern = (b', none) ∧
        b'.stack = nfa :: b.stack) ∨
      ∃ b' extra rejection, Machine.runPattern Builder.exec b pattern =
        (b', some (.pattern rejection)) ∧ b'.stack = extra ++ b.stack) ∧
    ∀ config, (∃ nfa, ofPattern config pattern = .ok nfa) ∨
      ∃ rejection, ofPattern config pattern = .error (.pattern rejection) := by
  refine ⟨fun b => Pattern.runPattern_keeps_stack b pattern, fun config => ?_⟩
  unfold ofPattern
  rcases Pattern.runPattern_keeps_stack { config } pattern with
    ⟨b, nfa, hrun, hstack⟩ | ⟨b, extra, rejection, hrun, -⟩
  · rw [hrun]
    refine .inl ⟨nfa, ?_⟩
    show b.finish = .ok nfa
    rw [Builder.finish, hstack]
  · rw [hrun]
    exact .inr ⟨rejection, rfl⟩

end Nfa

end LongestMatch
