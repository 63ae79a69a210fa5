import LongestMatch.Proofs.Courses
import LongestMatch.Proofs.Effects

/-!
# Repetitions, unfolded

The calls for the bounds of a repetition are a row of copies, then options and joints, each counted
by a formula of its own. What they amount to is told for any machine that interprets these four
instructions in an algebra (`Machine.Interprets`): the operand on top of its stack, wherever the
machine keeps that, is replaced by its copies, grouped to the right, and the rest of the stack stays
(`repetition_unfolds`). Where the builder does not refuse such a call, its automata speak
accordingly (`builder_copies`).
-/

namespace LongestMatch

open scoped Computability

namespace Pattern

open Descent (issues_bounded issues_unbounded Issues)

/-! ## Machines that work on a stack -/

namespace Machine

variable {σ α : Type}

/-- The machine holds a stack of operands, on which it carries out the instructions of a repetition
as the algebra tells. `Holds s xs` says that `xs` is the stack, with the top first. -/
structure Interprets (machine : Machine σ) (A : Algebra α) (Holds : σ → List α → Prop) :
    Prop where
  dup : ∀ {s x xs}, Holds s (x :: xs) → ∃ s', machine s .dup = (s', none) ∧ Holds s' (x :: x :: xs)
  seq : ∀ {s x y xs}, Holds s (y :: x :: xs) →
    ∃ s', machine s .seq = (s', none) ∧ Holds s' (A.seq x y :: xs)
  star : ∀ {s x xs}, Holds s (x :: xs) →
    ∃ s', machine s (.unary .star) = (s', none) ∧ Holds s' (A.unary .star x :: xs)
  optional : ∀ {s x xs}, Holds s (x :: xs) →
    ∃ s', machine s (.unary .optional) = (s', none) ∧ Holds s' (A.unary .optional x :: xs)

end Machine

/-- An instruction that a repetition makes use of. -/
inductive Instr.Repeats : Instr → Prop where
  | dup : Repeats dup
  | seq : Repeats seq
  | star : Repeats (unary .star)
  | optional : Repeats (unary .optional)

theorem repeats_of_mem_copies {instr : Instr} {min : Nat} {max : Option Nat}
    (h : instr ∈ copies min max) : instr.Repeats := by
  cases max with
  | none =>
    simp only [copies, List.mem_append, List.mem_cons, List.mem_replicate] at h
    rcases h with ⟨-, rfl⟩ | rfl | ⟨-, rfl⟩
    · exact .dup
    · exact .star
    · exact .seq
  | some max =>
    rw [copies] at h
    split at h
    · simp only [List.mem_append, List.mem_cons, List.mem_replicate, List.mem_flatten] at h
      rcases h with ⟨-, rfl⟩ | rfl | ⟨row, ⟨-, rfl⟩, hrow⟩ | ⟨-, rfl⟩
      · exact .dup
      · exact .optional
      · obtain rfl | rfl := List.mem_pair.1 hrow
        · exact .seq
        · exact .optional
      · exact .seq
    · simp only [List.mem_append, List.mem_replicate] at h
      rcases h with ⟨-, rfl⟩ | ⟨-, rfl⟩
      · exact .dup
      · exact .seq

section Interprets

variable {σ α : Type} {machine : Machine σ} {A : Algebra α} {Holds : σ → List α → Prop}
  {s : σ} {x : α} {xs ys : List α}

/-- One instruction has its effect. -/
theorem Machine.Interprets.exec (h : machine.Interprets A Holds) {instr : Instr}
    (hinstr : instr.Repeats) (hs : Holds s xs) (heffect : A.effect xs instr = some ys) :
    ∃ s', machine s instr = (s', none) ∧ Holds s' ys := by
  cases hinstr with
  | dup =>
    rcases xs with _ | ⟨x, xs⟩
    · cases heffect
    · cases heffect
      exact h.dup hs
  | seq =>
    rcases xs with _ | ⟨y, _ | ⟨x, xs⟩⟩
    · cases heffect
    · cases heffect
    · cases heffect
      exact h.seq hs
  | star =>
    rcases xs with _ | ⟨x, xs⟩
    · cases heffect
    · cases heffect
      exact h.star hs
  | optional =>
    rcases xs with _ | ⟨x, xs⟩
    · cases heffect
    · cases heffect
      exact h.optional hs

/-- A row of them has the effect that they have one after another. -/
theorem Machine.Interprets.run (h : machine.Interprets A Holds) {instrs : List Instr}
    (hinstrs : ∀ instr ∈ instrs, instr.Repeats) (hs : Holds s xs)
    (heffects : A.effects xs instrs = some ys) :
    ∃ s', machine.run s instrs = (s', none) ∧ Holds s' ys := by
  induction instrs generalizing s xs with
  | nil =>
    cases heffects
    exact ⟨s, rfl, hs⟩
  | cons instr instrs ih =>
    rw [A.effects_cons, Option.bind_eq_some_iff] at heffects
    obtain ⟨zs, heffect, heffects⟩ := heffects
    obtain ⟨hinstr, hinstrs⟩ := List.forall_mem_cons.1 hinstrs
    obtain ⟨s₁, hstep, hs₁⟩ := h.exec hinstr hs heffect
    obtain ⟨s', hrun, hs'⟩ := ih hinstrs hs₁ heffects
    refine ⟨s', ?_, hs'⟩
    rw [Machine.run, hstep]
    exact hrun

/-- Whatever hands out the copies of a repetition puts them in the place of the top. -/
theorem Machine.Interprets.copies (h : machine.Interprets A Holds) {pattern : List Char}
    {act : Parser σ Unit} {min : Nat} {max : Option Nat}
    (hact : Issues machine pattern act (copies min max))
    (hbounds : Lexeme.boundsInOrder min max = true) (hs : Holds s (x :: xs)) (start : Nat) :
    ∃ s', act ⟨start, s⟩ = .ok () ⟨start, s'⟩ ∧ Holds s' (A.times min max x :: xs) := by
  obtain ⟨s', hrun, hs'⟩ :=
    h.run (fun _ => repeats_of_mem_copies) hs (A.effects_copies hbounds x xs)
  refine ⟨s', ?_, hs'⟩
  rw [hact, hrun]
  rfl

end Interprets

/-! ## What becomes of the operand -/

namespace Algebra

variable {α : Type} (A : Algebra α)

theorem times_of_lt {min max : Nat} (h : min < max) (x : α) :
    A.times min (some max) x =
      (A.seq x)^[min] ((fun y => A.unary .optional (A.seq x y))^[max - min - 1]
        (A.unary .optional x)) := by
  rw [times, if_pos h]

theorem times_self (count : Nat) (x : α) :
    A.times count (some count) x = (A.seq x)^[count - 1] x := by
  rw [times, if_neg (Nat.lt_irrefl count)]

/-- The machine whose state is a stack. It refuses what has no effect there. -/
def machine : Machine (List α) :=
  fun xs instr => (A.effect xs instr).elim (xs, some Builder.underflow) fun ys => (ys, none)

theorem interprets_machine : A.machine.Interprets A Eq where
  dup h := ⟨_, by rw [h]; rfl, rfl⟩
  seq h := ⟨_, by rw [h]; rfl, rfl⟩
  star h := ⟨_, by rw [h]; rfl, rfl⟩
  optional h := ⟨_, by rw [h]; rfl, rfl⟩

/-- Operands as they are written down, with brackets around each sequence and alternation. -/
def written : Algebra String where
  set _ inverted := if inverted then "[^..]" else "[..]"
  any := "."
  text := String.ofList
  or s t := "(" ++ s ++ "|" ++ t ++ ")"
  seq s t := "(" ++ s ++ t ++ ")"
  unary op s := s.push op.sign
  group s := "<" ++ s ++ ">"

end Algebra

theorem boundsInOrder_some {min max : Nat} (hpos : 0 < max) (hle : min ≤ max) :
    Lexeme.boundsInOrder min (some max) = true := by
  rw [Lexeme.boundsInOrder, Bool.and_eq_true, decide_eq_true_eq, decide_eq_true_eq]
  exact ⟨hpos, hle⟩

theorem mem_powers_some {min max : Nat} {L : Language Char} {w : List Char} :
    w ∈ powers min (some max) L ↔ ∃ k, min ≤ k ∧ k ≤ max ∧ w ∈ L ^ k := by
  refine exists_congr fun k => and_congr_right fun _ => and_congr_left fun _ => ?_
  constructor
  · intro h
    exact h max rfl
  · rintro h n ⟨⟩
    exact h

theorem mem_powers_none {min : Nat} {L : Language Char} {w : List Char} :
    w ∈ powers min none L ↔ ∃ k, min ≤ k ∧ w ∈ L ^ k := by
  refine exists_congr fun k => and_congr_right fun _ => and_iff_right ?_
  rintro n ⟨⟩

/-- The calls for bounds replace the operand on top, and it alone, whatever is below it: by `min`
copies and nested options up to `max`, by `count` copies, or by `min` copies and a starred one. As
languages these are all the numbers of copies that the bounds allow. -/
theorem repetition_unfolds {σ α : Type} {machine : Machine σ} {A : Algebra α}
    {Holds : σ → List α → Prop} (hmachine : machine.Interprets A Holds) {s : σ} {x : α}
    {xs : List α} (hs : Holds s (x :: xs)) (pattern : List Char) (start : Nat) :
    (∀ min max, min < max → ∃ s',
      Descent.bounded machine pattern min max ⟨start, s⟩ = .ok () ⟨start, s'⟩ ∧
        Holds s' ((A.seq x)^[min] ((fun y => A.unary .optional (A.seq x y))^[max - min - 1]
          (A.unary .optional x)) :: xs)) ∧
    (∀ count, 1 ≤ count → ∃ s',
      Descent.bounded machine pattern count count ⟨start, s⟩ = .ok () ⟨start, s'⟩ ∧
        Holds s' ((A.seq x)^[count - 1] x :: xs)) ∧
    (∀ min, ∃ s', Descent.unbounded machine pattern min ⟨start, s⟩ = .ok () ⟨start, s'⟩ ∧
      Holds s' ((A.seq x)^[min] (A.unary .star x) :: xs)) ∧
    ∀ (L : Language Char) (w : List Char),
      (∀ min max, min < max →
        (w ∈ (languages.seq L)^[min] ((fun M => languages.unary .optional
            (languages.seq L M))^[max - min - 1] (languages.unary .optional L)) ↔
          ∃ k, min ≤ k ∧ k ≤ max ∧ w ∈ L ^ k)) ∧
      (∀ count, 1 ≤ count → (w ∈ (languages.seq L)^[count - 1] L ↔ w ∈ L ^ count)) ∧
      (∀ min, w ∈ (languages.seq L)^[min] (languages.unary .star L) ↔
        ∃ k, min ≤ k ∧ w ∈ L ^ k) := by
  refine ⟨fun min max hlt => ?_, fun count hcount => ?_, fun min => ?_, fun L w =>
    ⟨fun min max hlt => ?_, fun count hcount => ?_, fun min => ?_⟩⟩
  · have hbounds := boundsInOrder_some (Nat.zero_lt_of_lt hlt) hlt.le
    rw [← A.times_of_lt hlt]
    exact hmachine.copies (issues_bounded min max) hbounds hs start
  · rw [← A.times_self]
    exact hmachine.copies (issues_bounded count count) (boundsInOrder_some hcount le_rfl) hs start
  · exact hmachine.copies (issues_unbounded min) rfl hs start
  · have hbounds := boundsInOrder_some (Nat.zero_lt_of_lt hlt) hlt.le
    rw [← languages.times_of_lt hlt, times_languages hbounds]
    exact mem_powers_some
  · rw [← languages.times_self, times_languages (boundsInOrder_some hcount le_rfl),
      mem_powers_some]
    constructor
    · rintro ⟨k, hge, hle, hw⟩
      rwa [le_antisymm hge hle]
    · intro hw
      exact ⟨count, le_rfl, le_rfl, hw⟩
  · show w ∈ languages.times min none L ↔ _
    rw [times_languages rfl]
    exact mem_powers_none

/-- An operand of its own below, and two to four copies of the one on top. -/
theorem repetition_unfolds_twoToFour :
    Algebra.written.machine.Interprets Algebra.written Eq ∧
      ∃ s', Descent.bounded Algebra.written.machine [] 2 4 ⟨0, ["x", "y"]⟩ = .ok () ⟨0, s'⟩ ∧
        s' = ["(x(x(xx?)?))", "y"] := by
  refine ⟨Algebra.written.interprets_machine, ?_⟩
  have hvalue : (Algebra.written.seq "x")^[2] ((fun y => Algebra.written.unary .optional
      (Algebra.written.seq "x" y))^[4 - 2 - 1] (Algebra.written.unary .optional "x")) =
        "(x(x(xx?)?))" := by
    decide
  have h := (repetition_unfolds Algebra.written.interprets_machine (Eq.refl ["x", "y"]) [] 0).1
    2 4 (by decide)
  rwa [hvalue] at h

/-! ## The builder -/

section Builder

variable {b b' : Builder} {L : Language Char} {Ls : List (Language Char)} {pattern : List Char}
  {start : Nat} {act : Parser Builder Unit} {min : Nat} {max : Option Nat}

/-- Where the builder does not refuse them, the copies of a repetition make of the automaton on top
one that speaks as often as the bounds allow, and what the others speak remains. -/
theorem builder_copies (hact : Issues Builder.exec pattern act (copies min max))
    (hbounds : Lexeme.boundsInOrder min max = true)
    (hb : List.Forall₂ Nfa.Speaks b.stack (L :: Ls))
    (hok : act ⟨start, b⟩ = .ok () ⟨start, b'⟩) :
    List.Forall₂ Nfa.Speaks b'.stack (powers min max L :: Ls) := by
  rw [hact] at hok
  rcases hrun : Machine.run Builder.exec b (copies min max) with ⟨b₁, _ | error⟩
  · rw [hrun] at hok
    cases hok
    obtain ⟨Ms, heffects, hb'⟩ := describes_languages.run hb hrun
    rw [languages.effects_copies hbounds, times_languages hbounds] at heffects
    cases heffects
    exact hb'
  · rw [hrun] at hok
    cases hok

end Builder

end Pattern

end LongestMatch
