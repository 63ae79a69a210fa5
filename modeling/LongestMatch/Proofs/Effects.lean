import LongestMatch.Proofs.Containment
import LongestMatch.Proofs.Parsing

/-!
# What the instructions of a pattern amount to

The builder works on a stack of automata. What counts of an automaton may be its language, or its
language and more: an `Algebra` has an operation for each instruction that makes something, so that
each instruction has an effect on a stack of what counts (`Algebra.effect`).

* `Algebra.effects_copies` — a repetition replaces the operand on top by `Algebra.times`.
* `Tree.Of.effects_calls` — the instructions of a tree push its value (`Algebra.eval`).
* `Algebra.Describes.of_ofPattern` — if the operators on automata go along with the operations, the
  automaton of a pattern is described by the value of its tree.
* `Derives.eval_languages` — for languages the value of a tree is the language of the tree.
-/

namespace LongestMatch

open scoped Computability

namespace Pattern

theorem Bounds.inOrder {ks : List Glyph.Kind} {min : Nat} {max : Option Nat}
    (h : Bounds ks min max) : Lexeme.boundsInOrder min max = true := by
  cases h with
  | exact _ hpos =>
    rw [Lexeme.boundsInOrder, Bool.and_eq_true, decide_eq_true_eq, decide_eq_true_eq]
    exact ⟨hpos, Nat.le_refl min⟩
  | between _ _ hpos hle =>
    rw [Lexeme.boundsInOrder, Bool.and_eq_true, decide_eq_true_eq, decide_eq_true_eq]
    exact ⟨hpos, hle⟩
  | atLeast _ => rfl

/-! ## Algebras -/

/-- An operation for each instruction that makes something. -/
structure Algebra (α : Type) where
  set : List CharRange → Bool → α
  any : α
  text : List Char → α
  or : α → α → α
  seq : α → α → α
  unary : Unary → α → α
  group : α → α

namespace Algebra

variable {α : Type} (A : Algebra α) {x y : α} {xs xs' : List α}

/-- Texts in a row that are not empty are one text, and sequences may be grouped in any way. -/
structure Lawful : Prop where
  text_seq : ∀ u v, u ≠ [] → v ≠ [] → A.seq (A.text u) (A.text v) = A.text (u ++ v)
  seq_assoc : ∀ x y z, A.seq (A.seq x y) z = A.seq x (A.seq y z)

/-- As many copies in a row as the bounds say. Those beyond the lower bound are nested options, or a
single one with a star. -/
def times (min : Nat) : Option Nat → α → α
  | none, x => (A.seq x)^[min] (A.unary .star x)
  | some max, x =>
    if min < max then
      (A.seq x)^[min] ((fun y => A.unary .optional (A.seq x y))^[max - min - 1]
        (A.unary .optional x))
    else (A.seq x)^[min - 1] x

/-- The value of a tree. -/
def eval : Tree → α
  | .plain c => A.text [c]
  | .escape c => A.text [c]
  | .any => A.any
  | .set ranges inverted => A.set ranges inverted
  | .group report t => if report then A.group (eval t) else eval t
  | .unary op t => A.unary op (eval t)
  | .times min max t => A.times min max (eval t)
  | .seq s t => A.seq (eval s) (eval t)
  | .or s t => A.or (eval s) (eval t)

/-! ## From one algebra to another -/

section Relates

variable {β : Type} {B : Algebra β} {R : α → β → Prop}

/-- The operations lead from values that are related to such values again. -/
structure Relates (A : Algebra α) (B : Algebra β) (R : α → β → Prop) : Prop where
  set : ∀ ranges inverted, R (A.set ranges inverted) (B.set ranges inverted)
  any : R A.any B.any
  text : ∀ cs, R (A.text cs) (B.text cs)
  or : ∀ {x y : α} {u v : β}, R x u → R y v → R (A.or x y) (B.or u v)
  seq : ∀ {x y : α} {u v : β}, R x u → R y v → R (A.seq x y) (B.seq u v)
  unary : ∀ (op : Unary) {x : α} {u : β}, R x u → R (A.unary op x) (B.unary op u)
  group : ∀ {x : α} {u : β}, R x u → R (A.group x) (B.group u)

variable {A} {u : β}

theorem related_iterate {f : α → α} {g : β → β} (hfg : ∀ {x : α} {u : β}, R x u → R (f x) (g u))
    (h : R x u) (n : Nat) : R (f^[n] x) (g^[n] u) := by
  induction n with
  | zero => exact h
  | succ n ih =>
    rw [Function.iterate_succ_apply', Function.iterate_succ_apply']
    exact hfg ih

theorem Relates.times (hAB : A.Relates B R) (min : Nat) (max : Option Nat) (h : R x u) :
    R (A.times min max x) (B.times min max u) := by
  cases max with
  | none => exact related_iterate (hAB.seq h) (hAB.unary .star h) min
  | some max =>
    rw [Algebra.times, Algebra.times]
    split
    · apply related_iterate (hAB.seq h)
      exact related_iterate (fun hy => hAB.unary .optional (hAB.seq h hy)) (hAB.unary .optional h) _
    · exact related_iterate (hAB.seq h) h _

/-- The values of a tree are related. -/
theorem Relates.eval (hAB : A.Relates B R) (t : Tree) : R (A.eval t) (B.eval t) := by
  induction t with
  | plain c | escape c => exact hAB.text [c]
  | any => exact hAB.any
  | set ranges inverted => exact hAB.set ranges inverted
  | group report t ih =>
    cases report with
    | false => exact ih
    | true => exact hAB.group ih
  | unary op t ih => exact hAB.unary op ih
  | times min max t ih => exact hAB.times min max ih
  | seq s t ihs iht => exact hAB.seq ihs iht
  | or s t ihs iht => exact hAB.or ihs iht

end Relates

/-! ## Effects on a stack -/

/-- What an instruction does to a stack. -/
def effect : List α → Instr → Option (List α)
  | xs, .set ranges inverted => some (A.set ranges inverted :: xs)
  | xs, .any => some (A.any :: xs)
  | xs, .text s => some (A.text s.toList :: xs)
  | x :: y :: xs, .swap => some (y :: x :: xs)
  | x :: xs, .dup => some (x :: x :: xs)
  | y :: x :: xs, .or => some (A.or x y :: xs)
  | y :: x :: xs, .seq => some (A.seq x y :: xs)
  | x :: xs, .unary op => some (A.unary op x :: xs)
  | x :: xs, .group => some (A.group x :: xs)
  | _, _ => none

/-- What instructions do to a stack. -/
def effects (xs : List α) (instrs : List Instr) : Option (List α) :=
  instrs.foldlM A.effect xs

theorem effects_nil (xs : List α) : A.effects xs [] = some xs :=
  rfl

theorem effects_cons (xs : List α) (instr : Instr) (instrs : List Instr) :
    A.effects xs (instr :: instrs) = (A.effect xs instr).bind fun xs => A.effects xs instrs :=
  rfl

theorem effects_append (xs : List α) (instrs instrs' : List Instr) :
    A.effects xs (instrs ++ instrs') =
      (A.effects xs instrs).bind fun xs => A.effects xs instrs' :=
  List.foldlM_append

/-! ## Repetitions -/

theorem effects_dup (x : α) (xs : List α) (n : Nat) :
    A.effects (x :: xs) (List.replicate n .dup) = some (List.replicate (n + 1) x ++ xs) := by
  induction n generalizing xs with
  | zero => rfl
  | succ n ih =>
    rw [List.replicate_succ, effects_cons]
    show A.effects (x :: x :: xs) _ = _
    rw [ih, List.append_cons, ← List.replicate_succ']

/-- The copies below are put in front of the top. -/
theorem effects_seq (x y : α) (xs : List α) (n : Nat) :
    A.effects (y :: (List.replicate n x ++ xs)) (List.replicate n .seq) =
      some ((A.seq x)^[n] y :: xs) := by
  induction n generalizing y with
  | zero => simp [effects_nil]
  | succ n ih =>
    rw [List.replicate_succ (a := Instr.seq), effects_cons]
    show A.effects (A.seq x y :: (List.replicate n x ++ xs)) _ = _
    rw [ih, Function.iterate_succ_apply]

/-- The copies below become nested options in front of the top. -/
theorem effects_options (x y : α) (xs : List α) (n : Nat) :
    A.effects (y :: (List.replicate n x ++ xs))
        (List.replicate n [.seq, .unary .optional]).flatten =
      some ((fun y => A.unary .optional (A.seq x y))^[n] y :: xs) := by
  induction n generalizing y with
  | zero => simp [effects_nil]
  | succ n ih =>
    rw [List.replicate_succ (a := [Instr.seq, .unary .optional]), List.flatten_cons,
      effects_append]
    show A.effects (A.unary .optional (A.seq x y) :: (List.replicate n x ++ xs)) _ = _
    rw [ih, Function.iterate_succ_apply]

/-- As many copies as are wanted at least, the last one starred. -/
theorem effects_copies_none (min : Nat) (x : α) (xs : List α) :
    A.effects (x :: xs) (copies min none) = some (A.times min none x :: xs) := by
  rw [copies, effects_append, effects_dup, Option.bind_some, effects_cons]
  show A.effects (A.unary .star x :: (List.replicate min x ++ xs)) _ = _
  rw [effects_seq]
  rfl

/-- `min` copies, and `d + 1` further ones as nested options. -/
theorem effects_copies_of_lt (min d : Nat) (x : α) (xs : List α) :
    A.effects (x :: xs) (copies min (some (min + d + 1))) =
      some (A.times min (some (min + d + 1)) x :: xs) := by
  have hcopies : List.replicate (min + d + 1) x ++ xs =
      x :: (List.replicate d x ++ (List.replicate min x ++ xs)) := by
    rw [← List.append_assoc, List.replicate_append_replicate, Nat.add_comm d,
      List.replicate_succ]
    rfl
  have hpred : min + d + 1 - 1 = min + d := rfl
  have hdiff : min + d + 1 - min - 1 = d := by omega
  rw [copies, times, if_pos (by omega), if_pos (by omega), hdiff, hpred, effects_append,
    effects_dup, Option.bind_some, hcopies, effects_cons]
  show A.effects (A.unary .optional x :: _) _ = _
  rw [effects_append, effects_options, Option.bind_some, effects_seq]

theorem effects_copies_self (d : Nat) (x : α) (xs : List α) :
    A.effects (x :: xs) (copies (d + 1) (some (d + 1))) =
      some (A.times (d + 1) (some (d + 1)) x :: xs) := by
  have hpred : d + 1 - 1 = d := rfl
  rw [copies, times, if_neg (Nat.lt_irrefl _), if_neg (Nat.lt_irrefl _), hpred, effects_append,
    effects_dup, Option.bind_some, List.replicate_succ]
  show A.effects (x :: (List.replicate d x ++ xs)) _ = _
  rw [effects_seq]

/-- What a repetition does to the operand on top. -/
theorem effects_copies {min : Nat} {max : Option Nat} (h : Lexeme.boundsInOrder min max = true)
    (x : α) (xs : List α) :
    A.effects (x :: xs) (copies min max) = some (A.times min max x :: xs) := by
  cases max with
  | none => exact A.effects_copies_none min x xs
  | some max =>
    obtain ⟨hpos, hle⟩ : 0 < max ∧ min ≤ max := by simpa [Lexeme.boundsInOrder] using h
    rcases Nat.lt_or_eq_of_le hle with hlt | rfl
    · obtain ⟨d, rfl⟩ := Nat.exists_eq_add_of_lt hlt
      exact A.effects_copies_of_lt min d x xs
    · obtain ⟨d, rfl⟩ := Nat.exists_eq_add_of_le' hpos
      exact A.effects_copies_self d x xs

/-! ## Trees -/

/-- The instructions of a piece, which is not a row of no characters, push this value. -/
structure Says (p : Piece) (x : α) : Prop where
  ne : p ≠ .run []
  effects_eq : ∀ xs, A.effects xs p.calls = some (x :: xs)

/-- The pieces of a sequence push these values, and together their sequence. -/
inductive SayAll : List Piece → α → Prop where
  | one {p : Piece} {x : α} : A.Says p x → SayAll [p] x
  | cons {p : Piece} {ps : List Piece} {x y : α} :
      SayAll ps x → A.Says p y → SayAll (p :: ps) (A.seq x y)

variable {A} {p : Piece} {ps : List Piece}

theorem effects_run (cs : List Char) (xs : List α) :
    A.effects xs (Piece.run cs).calls = some (A.text cs :: xs) := by
  show some (A.text (String.ofList cs).toList :: xs) = _
  rw [String.toList_ofList]

theorem says_run {cs : List Char} (h : cs ≠ []) : A.Says (.run cs) (A.text cs) :=
  ⟨fun heq => h (Piece.run.inj heq), effects_run cs⟩

theorem says_operand {calls : List Instr} (h : ∀ xs, A.effects xs calls = some (x :: xs)) :
    A.Says (.operand calls) x :=
  ⟨fun heq => (by cases heq), h⟩

theorem Says.of_run {cs : List Char} (h : A.Says (.run cs) x) : cs ≠ [] ∧ x = A.text cs := by
  constructor
  · rintro rfl
    exact h.ne rfl
  · have heq := (h.effects_eq []).symm.trans (effects_run cs [])
    cases heq
    rfl

theorem SayAll.ne_nil (h : A.SayAll ps x) : ps ≠ [] := by
  cases h <;> exact List.cons_ne_nil _ _

theorem SayAll.effects (h : A.SayAll ps x) (xs : List α) :
    A.effects xs (Piece.joined ps) = some (x :: xs) := by
  induction h with
  | one h => exact h.effects_eq xs
  | cons hps hp ih =>
    rw [Piece.joined_cons hps.ne_nil, List.append_assoc, effects_append, ih, Option.bind_some,
      effects_append, hp.effects_eq]
    rfl

theorem SayAll.single (h : A.SayAll ps x) : A.Says (Piece.single ps) x := by
  have heffects := h.effects
  cases h with
  | one hp => exact hp
  | cons hps _ =>
    obtain ⟨q, qs, rfl⟩ := List.exists_cons_of_ne_nil hps.ne_nil
    exact says_operand heffects

/-- Rows of characters that meet say the same as one row. -/
theorem SayAll.push (hA : A.Lawful) (h : A.SayAll ps x) (hp : A.Says p y) :
    A.SayAll (Piece.push ps p) (A.seq x y) := by
  by_cases hends : Piece.EndsOpen ps
  · obtain ⟨cs, qs, rfl⟩ := hends
    cases p with
    | operand calls =>
      rw [Piece.push_operand]
      exact .cons h hp
    | run ds =>
      obtain ⟨hds, rfl⟩ := hp.of_run
      cases h with
      | one hsays =>
        obtain ⟨hcs, rfl⟩ := hsays.of_run
        rw [hA.text_seq cs ds hcs hds]
        exact .one (says_run (List.append_ne_nil_of_left_ne_nil hcs ds))
      | cons hqs hsays =>
        obtain ⟨hcs, rfl⟩ := hsays.of_run
        rw [hA.seq_assoc, hA.text_seq cs ds hcs hds]
        exact .cons hqs (says_run (List.append_ne_nil_of_left_ne_nil hcs ds))
  · rw [Piece.push_of_not_endsOpen hends]
    exact .cons h hp

end Algebra

section Eval

variable {α : Type} {A : Algebra α}

/-- The pieces of a derived tree say its value. -/
theorem Derives.sayAll (hA : A.Lawful) {category : Category} {ks : List Glyph.Kind} {t : Tree}
    (h : Derives category ks t) : A.SayAll t.pieces (A.eval t) := by
  -- along the grammar; below an operator the instructions of its operands come first
  have hafter : ∀ {t : Tree} {x : α} {instrs : List Instr}, A.SayAll t.pieces (A.eval t) →
      (∀ xs, A.effects (A.eval t :: xs) instrs = some (x :: xs)) →
      A.SayAll [.operand (Piece.joined t.pieces ++ instrs)] x := by
    intro t x instrs ht hinstrs
    refine .one (Algebra.says_operand fun xs => ?_)
    rw [A.effects_append, ht.effects]
    exact hinstrs xs
  induction h with
  | plain hc => exact .one (Algebra.says_run (List.cons_ne_nil _ _))
  | escape c => exact .one (Algebra.says_operand fun xs => A.effects_run [c] xs)
  | any => exact .one (Algebra.says_operand fun xs => rfl)
  | set hclass => exact .one (Algebra.says_operand fun xs => rfl)
  | group _ ih => exact hafter ih fun xs => rfl
  | report _ ih => exact hafter ih fun xs => rfl
  | atom _ ih => exact ih
  | unary op _ ih => exact hafter ih fun xs => rfl
  | times _ hb ih => exact hafter ih fun xs => A.effects_copies hb.inOrder _ xs
  | factor _ ih => exact ih
  | seq _ _ ihs iht => exact ihs.push hA iht.single
  | sequence _ ih => exact ih
  | or _ _ ihs iht =>
    refine .one (Algebra.says_operand fun xs => ?_)
    rw [A.effects_append, A.effects_append, ihs.effects, Option.bind_some, iht.effects]
    rfl

/-- The instructions of a tree push its value. -/
theorem Tree.Of.effects_calls (hA : A.Lawful) {t : Tree} {pattern : String} (h : t.Of pattern)
    (xs : List α) : A.effects xs t.calls = some (A.eval t :: xs) := by
  obtain ⟨ks, -, hderives⟩ := h
  exact (hderives.sayAll hA).effects xs

end Eval

/-! ## Automata and what counts of them -/

theorem exists_builder_of_ofPattern {config : Config} {pattern : String} {nfa : Nfa}
    (h : Nfa.ofPattern config pattern = .ok nfa) :
    (Script.ofChars pattern.toList).fault = none ∧ ∃ b : Builder, b.stack = [nfa] ∧
      Machine.run Builder.exec { config } (Script.ofChars pattern.toList).instrs = (b, none) := by
  unfold Nfa.ofPattern at h
  split at h
  · cases h
  · next b hrun =>
    obtain ⟨hinstrs, hfault⟩ := Machine.runPattern_eq_iff.1 hrun
    unfold Builder.finish at h
    split at h
    · next top hstack =>
      cases h
      exact ⟨hfault, b, hstack, hinstrs⟩
    · cases h

namespace Algebra

variable {α : Type} {A : Algebra α} {R : Nfa → α → Prop}

/-- The operators on automata go along with the operations: if what counts of the operands is given
by `R`, what counts of the result is given by it, too. -/
structure Describes (A : Algebra α) (R : Nfa → α → Prop) : Prop where
  charSet : ∀ config ranges inverted, R (.charSet config ranges inverted) (A.set ranges inverted)
  anyChar : ∀ config, R (.anyChar config) A.any
  literal : ∀ config s, R (.literal config s) (A.text s.toList)
  copy : ∀ {nfa x}, R nfa x → R nfa.copy x
  or : ∀ {nfa other whole x y}, R nfa x → R other y → nfa.or other = .ok whole →
    R whole (A.or x y)
  seq : ∀ {nfa other whole x y}, R nfa x → R other y → nfa.seq other = .ok whole →
    R whole (A.seq x y)
  unary : ∀ op {nfa whole x}, R nfa x → Unary.apply op nfa = .ok whole → R whole (A.unary op x)
  group : ∀ {nfa whole x}, R nfa x → nfa.markGroup = .ok whole → R whole (A.group x)

variable {b b' : Builder} {xs : List α}

theorem forall₂_pushResult {rest : List Nfa} {result : Except GroupOverflow Nfa} {x : α}
    (hrest : List.Forall₂ R rest xs) (hok : b.pushResult rest result = (b', none))
    (hresult : ∀ nfa, result = .ok nfa → R nfa x) : List.Forall₂ R b'.stack (x :: xs) := by
  cases result with
  | ok nfa =>
    cases hok
    exact .cons (hresult nfa rfl) hrest
  | error e =>
    cases e
    cases hok

theorem forall₂_unary {op : Nfa → Except GroupOverflow Nfa} {f : α → α}
    (hop : ∀ {nfa whole x}, R nfa x → op nfa = .ok whole → R whole (f x))
    (hb : List.Forall₂ R b.stack xs) (hok : b.unary op = (b', none)) :
    ∃ x xs', xs = x :: xs' ∧ List.Forall₂ R b'.stack (f x :: xs') := by
  unfold Builder.unary at hok
  split at hok
  · cases hok
  · next top rest hstack =>
    rw [hstack] at hb
    cases hb with
    | cons htop hrest =>
      exact ⟨_, _, rfl, forall₂_pushResult hrest hok fun nfa h => hop htop h⟩

theorem forall₂_binary {op : Nfa → Nfa → Except GroupOverflow Nfa} {f : α → α → α}
    (hop : ∀ {nfa other whole x y}, R nfa x → R other y → op nfa other = .ok whole →
      R whole (f x y))
    (hb : List.Forall₂ R b.stack xs) (hok : b.binary op = (b', none)) :
    ∃ x y xs', xs = y :: x :: xs' ∧ List.Forall₂ R b'.stack (f x y :: xs') := by
  unfold Builder.binary at hok
  split at hok
  · next right left rest hstack =>
    rw [hstack] at hb
    cases hb with
    | cons hright hrest =>
      cases hrest with
      | cons hleft hrest =>
        exact ⟨_, _, _, rfl, forall₂_pushResult hrest hok fun nfa h => hop hleft hright h⟩
  · cases hok

theorem forall₂_swap (hb : List.Forall₂ R b.stack xs) (hok : b.swap = (b', none)) :
    ∃ x y xs', xs = x :: y :: xs' ∧ List.Forall₂ R b'.stack (y :: x :: xs') := by
  unfold Builder.swap at hok
  split at hok
  · next top second rest hstack =>
    cases hok
    rw [hstack] at hb
    cases hb with
    | cons htop hrest =>
      cases hrest with
      | cons hsecond hrest => exact ⟨_, _, _, rfl, .cons hsecond (.cons htop hrest)⟩
  · cases hok

theorem forall₂_dup (hcopy : ∀ {nfa x}, R nfa x → R nfa.copy x) (hb : List.Forall₂ R b.stack xs)
    (hok : b.dup = (b', none)) :
    ∃ x xs', xs = x :: xs' ∧ List.Forall₂ R b'.stack (x :: x :: xs') := by
  unfold Builder.dup at hok
  split at hok
  · next top rest hstack =>
    cases hok
    rw [hstack] at hb
    cases hb with
    | cons htop hrest =>
      refine ⟨_, _, rfl, .cons (hcopy htop) ?_⟩
      rw [hstack]
      exact .cons htop hrest
  · cases hok

/-- An instruction that is not refused has its effect. -/
theorem Describes.exec (hR : A.Describes R) {instr : Instr} (hb : List.Forall₂ R b.stack xs)
    (hok : Builder.exec b instr = (b', none)) :
    ∃ xs', A.effect xs instr = some xs' ∧ List.Forall₂ R b'.stack xs' := by
  cases instr with
  | set ranges inverted =>
    cases hok
    exact ⟨_, rfl, .cons (hR.charSet _ ranges inverted) hb⟩
  | any =>
    cases hok
    exact ⟨_, rfl, .cons (hR.anyChar _) hb⟩
  | text s =>
    cases hok
    exact ⟨_, rfl, .cons (hR.literal _ s) hb⟩
  | swap =>
    obtain ⟨x, y, xs', rfl, hb'⟩ := forall₂_swap hb hok
    exact ⟨_, rfl, hb'⟩
  | dup =>
    obtain ⟨x, xs', rfl, hb'⟩ := forall₂_dup hR.copy hb hok
    exact ⟨_, rfl, hb'⟩
  | or =>
    obtain ⟨x, y, xs', rfl, hb'⟩ := forall₂_binary hR.or hb hok
    exact ⟨_, rfl, hb'⟩
  | seq =>
    obtain ⟨x, y, xs', rfl, hb'⟩ := forall₂_binary hR.seq hb hok
    exact ⟨_, rfl, hb'⟩
  | unary op =>
    obtain ⟨x, xs', rfl, hb'⟩ := forall₂_unary (hR.unary op) hb hok
    exact ⟨_, rfl, hb'⟩
  | group =>
    obtain ⟨x, xs', rfl, hb'⟩ := forall₂_unary hR.group hb hok
    exact ⟨_, rfl, hb'⟩

theorem Describes.run (hR : A.Describes R) {instrs : List Instr}
    (hb : List.Forall₂ R b.stack xs) (hok : Machine.run Builder.exec b instrs = (b', none)) :
    ∃ xs', A.effects xs instrs = some xs' ∧ List.Forall₂ R b'.stack xs' := by
  induction instrs generalizing b xs with
  | nil =>
    cases hok
    exact ⟨xs, rfl, hb⟩
  | cons instr instrs ih =>
    rw [Machine.run] at hok
    split at hok
    · next b₁ hstep =>
      obtain ⟨xs₁, heffect, hb₁⟩ := hR.exec hb hstep
      obtain ⟨xs', heffects, hb'⟩ := ih hb₁ hok
      exact ⟨xs', by rw [effects_cons, heffect]; exact heffects, hb'⟩
    · cases hok

/-- The automaton of a pattern is described by the value of its tree. -/
theorem Describes.of_ofPattern (hR : A.Describes R) (hA : A.Lawful) {config : Config}
    {pattern : String} {nfa : Nfa} (h : Nfa.ofPattern config pattern = .ok nfa) {t : Tree}
    (ht : t.Of pattern) : R nfa (A.eval t) := by
  obtain ⟨-, b, hstack, hrun⟩ := exists_builder_of_ofPattern h
  rw [ht.script.2] at hrun
  obtain ⟨xs, heffect, hall⟩ := hR.run List.Forall₂.nil hrun
  obtain rfl : [A.eval t] = xs := Option.some.inj ((ht.effects_calls hA []).symm.trans heffect)
  rw [hstack] at hall
  cases hall with
  | cons hnfa _ => exact hnfa

end Algebra

/-! ## Languages -/

section Languages

open Nfa (Speaks)

variable {nfa whole : Nfa} {L : Language Char}

theorem powers_zero (L : Language Char) : powers 0 (some 0) L = 1 := by
  ext w
  constructor
  · intro h
    obtain ⟨k, -, hk, hw⟩ := h
    obtain rfl : k = 0 := Nat.le_zero.1 (hk 0 rfl)
    exact hw
  · intro hw
    exact ⟨0, Nat.le_refl 0, fun n _ => Nat.zero_le n, hw⟩

theorem powers_succ (L : Language Char) (n : Nat) :
    powers 0 (some (n + 1)) L = L * powers 0 (some n) L + 1 := by
  ext w
  rw [Language.mem_add, Language.mem_one]
  constructor
  · intro h
    obtain ⟨k, -, hk, hw⟩ := h
    cases k with
    | zero => exact .inr hw
    | succ k =>
      rw [pow_succ'] at hw
      obtain ⟨u, hu, v, hv, rfl⟩ := hw
      have hk : k + 1 ≤ n + 1 := hk _ rfl
      exact .inl ⟨u, hu, v, ⟨k, Nat.zero_le k, fun m hm => by cases hm; omega, hv⟩, rfl⟩
  · intro h
    rcases h with ⟨u, hu, v, ⟨k, -, hk, hv⟩, rfl⟩ | rfl
    · refine ⟨k + 1, Nat.zero_le _, fun m hm => ?_, ?_⟩
      · have := hk n rfl
        cases hm
        omega
      · rw [pow_succ']
        exact ⟨u, hu, v, hv, rfl⟩
    · exact ⟨0, Nat.le_refl 0, fun m hm => Nat.zero_le m, rfl⟩

theorem powers_none (L : Language Char) : powers 0 none L = L∗ := by
  ext w
  rw [Language.kstar_eq_iSup_pow, Language.mem_iSup]
  exact exists_congr fun k => by simp

theorem pow_mul_powers (L : Language Char) (m : Nat) (max : Option Nat) :
    L ^ m * powers 0 max L = powers m (max.map (m + ·)) L := by
  ext w
  constructor
  · intro h
    obtain ⟨u, hu, v, ⟨k, -, hk, hv⟩, rfl⟩ := h
    refine ⟨m + k, Nat.le_add_right m k, fun n hn => ?_, ?_⟩
    · obtain ⟨n', hn', rfl⟩ := Option.map_eq_some_iff.1 hn
      exact Nat.add_le_add_left (hk n' hn') m
    · rw [pow_add]
      exact ⟨u, hu, v, hv, rfl⟩
  · intro h
    obtain ⟨k, hmk, hk, hw⟩ := h
    rw [← Nat.add_sub_cancel' hmk, pow_add] at hw
    obtain ⟨u, hu, v, hv, rfl⟩ := hw
    refine ⟨u, hu, v, ⟨k - m, Nat.zero_le _, fun n hn => ?_, hv⟩, rfl⟩
    have := hk (m + n) (Option.map_eq_some_iff.2 ⟨n, hn, rfl⟩)
    omega

theorem singleton_mul_singleton (u v : List Char) :
    ({u} : Language Char) * {v} = {u ++ v} :=
  Set.image2_singleton

/-- The operations on languages. -/
def languages : Algebra (Language Char) where
  set ranges inverted := Tree.language (.set ranges inverted)
  any := Tree.language .any
  text cs := {cs}
  or L M := L + M
  seq L M := L * M
  unary op L := op.language L
  group L := L

theorem lawful_languages : languages.Lawful :=
  ⟨fun u v _ _ => singleton_mul_singleton u v, mul_assoc⟩

theorem iterate_seq_languages (n : Nat) (L M : Language Char) :
    (languages.seq L)^[n] M = L ^ n * M := by
  induction n generalizing M with
  | zero => simp
  | succ n ih =>
    rw [Function.iterate_succ_apply, ih, pow_succ, mul_assoc]
    rfl

/-- Nested options are up to as many copies. -/
theorem iterate_optional_languages (n k : Nat) (L : Language Char) :
    (fun M => languages.unary .optional (languages.seq L M))^[n] (powers 0 (some k) L) =
      powers 0 (some (k + n)) L := by
  induction n generalizing k with
  | zero => rfl
  | succ n ih =>
    have hone : languages.unary .optional (languages.seq L (powers 0 (some k) L)) =
        powers 0 (some (k + 1)) L := (powers_succ L k).symm
    rw [Function.iterate_succ_apply, hone, ih, Nat.add_right_comm]
    rfl

/-- Copies in a row have the language that the bounds stand for. -/
theorem times_languages {min : Nat} {max : Option Nat} (h : Lexeme.boundsInOrder min max = true)
    (L : Language Char) : languages.times min max L = powers min max L := by
  cases max with
  | none =>
    show (languages.seq L)^[min] L∗ = _
    rw [iterate_seq_languages, ← powers_none, pow_mul_powers]
    rfl
  | some max =>
    obtain ⟨hpos, hle⟩ : 0 < max ∧ min ≤ max := by simpa [Lexeme.boundsInOrder] using h
    rcases Nat.lt_or_eq_of_le hle with hlt | rfl
    · have hone : languages.unary .optional L = powers 0 (some 1) L := by
        rw [powers_succ, powers_zero, mul_one]
        rfl
      have hsum : min + (1 + (max - min - 1)) = max := by omega
      rw [Algebra.times, if_pos hlt, hone, iterate_optional_languages, iterate_seq_languages,
        pow_mul_powers, Option.map_some, hsum]
    · obtain ⟨d, rfl⟩ := Nat.exists_eq_add_of_le' hpos
      rw [Algebra.times, if_neg (Nat.lt_irrefl _), Nat.add_sub_cancel, iterate_seq_languages,
        ← pow_succ, ← mul_one (L ^ (d + 1)), ← powers_zero L, pow_mul_powers]
      rfl

/-- The value of a derived tree is its language. -/
theorem Derives.eval_languages {category : Category} {ks : List Glyph.Kind} {t : Tree}
    (h : Derives category ks t) : languages.eval t = t.language := by
  induction h with
  | plain | escape | any | set => rfl
  | group _ ih => exact ih
  | report _ ih => exact ih
  | atom _ ih => exact ih
  | unary op _ ih =>
    show op.language _ = _
    rw [ih]
    rfl
  | times _ hb ih =>
    show languages.times _ _ _ = _
    rw [ih, times_languages hb.inOrder]
    rfl
  | factor _ ih => exact ih
  | seq _ _ ihs iht =>
    show languages.eval _ * languages.eval _ = _
    rw [ihs, iht]
    rfl
  | sequence _ ih => exact ih
  | or _ _ ihs iht =>
    show languages.eval _ + languages.eval _ = _
    rw [ihs, iht]
    rfl

theorem Unary.speaks_apply (op : Unary) (h : nfa.Speaks L) (hwhole : op.apply nfa = .ok whole) :
    whole.Speaks (op.language L) := by
  cases op with
  | withoutMatch => exact h.withoutMatch hwhole
  | star =>
    cases hwhole
    exact h.star
  | plus =>
    cases hwhole
    exact h.plus
  | optional =>
    cases hwhole
    exact h.optional
  | invert =>
    cases hwhole
    exact h.invert
  | shortest =>
    cases hwhole
    exact h.shortest
  | allPrefixes =>
    cases hwhole
    exact h.allPrefixes

/-- The operators make of automata that speak languages one that speaks what becomes of them. -/
theorem describes_languages : languages.Describes Speaks where
  charSet config ranges inverted := Nfa.speaks_charSet config ranges inverted
  anyChar config := Nfa.speaks_anyChar config
  literal config s := Nfa.speaks_literal config s
  copy h := h.copy
  or h ho hwhole := h.or ho hwhole
  seq h ho hwhole := h.seq ho hwhole
  unary op _ _ _ h hwhole := op.speaks_apply h hwhole
  group h hwhole := h.markGroup hwhole

end Languages

end Pattern

end LongestMatch
