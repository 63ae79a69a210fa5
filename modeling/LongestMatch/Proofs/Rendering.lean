import LongestMatch.Pattern.Script
import LongestMatch.Proofs.Grammar

/-!
# The instructions of a tree

The instructions of a tree are those of its parts, followed by that of its root. A sequence is put
together from left to right, and characters in a row that stand for themselves are one text
(`Tree.calls`).

Nothing here depends on how a pattern is read. That reading it yields the instructions of its tree
is shown in `LongestMatch.Proofs.Reading`.
-/

namespace LongestMatch

namespace Pattern

/-! ## Pieces of a sequence -/

/-- A piece of a sequence. -/
inductive Piece where
  /-- Characters in a row that stand for themselves. -/
  | run (chars : List Char)
  /-- Any other operand, given by its instructions. -/
  | operand (calls : List Instr)

namespace Piece

/-- The instructions of a piece. -/
def calls : Piece → List Instr
  | run chars => [.text (String.ofList chars)]
  | operand calls => calls

/-- Adds a piece to a sequence, of which the latest piece comes first. Characters join a row. -/
def push : List Piece → Piece → List Piece
  | run cs :: ps, run ds => run (cs ++ ds) :: ps
  | ps, p => p :: ps

/-- The instructions of a sequence. -/
def joined : List Piece → List Instr
  | [] => []
  | [p] => p.calls
  | p :: q :: ps => joined (q :: ps) ++ p.calls ++ [.seq]

/-- A sequence as one piece. -/
def single : List Piece → Piece
  | [p] => p
  | ps => operand (joined ps)

variable {p q : Piece} {ps : List Piece}

theorem joined_cons (h : ps ≠ []) : joined (p :: ps) = joined ps ++ p.calls ++ [.seq] := by
  obtain ⟨q, qs, rfl⟩ := List.exists_cons_of_ne_nil h
  rfl

theorem calls_single (ps : List Piece) : (single ps).calls = joined ps := by
  unfold single
  split <;> rfl

theorem push_ne_nil (ps : List Piece) (p : Piece) : push ps p ≠ [] := by
  unfold push
  split <;> exact List.cons_ne_nil _ _

theorem push_operand (ps : List Piece) (calls : List Instr) :
    push ps (operand calls) = operand calls :: ps := by
  unfold push
  split
  · next h => cases h
  · rfl

/-- Characters are added one by one or all at once. -/
theorem push_run_run (ps : List Piece) (cs ds : List Char) :
    push (push ps (run cs)) (run ds) = push ps (run (cs ++ ds)) := by
  rcases ps with _ | ⟨q, ps⟩
  · rfl
  · cases q with
    | run bs =>
      show run (bs ++ cs ++ ds) :: ps = run (bs ++ (cs ++ ds)) :: ps
      rw [List.append_assoc]
    | operand calls => rfl

/-- Whether a sequence ends with a row of characters that could go on. -/
def EndsOpen (ps : List Piece) : Prop :=
  ∃ cs qs, ps = run cs :: qs

/-- Where no row goes on, a piece is added as it is. -/
theorem push_of_not_endsOpen (h : ¬EndsOpen ps) (p : Piece) : push ps p = p :: ps := by
  unfold push
  split
  · next cs qs ds => exact absurd ⟨cs, qs, rfl⟩ h
  · rfl

end Piece

/-! ## Trees -/

/-- What turns one operand into as many copies in a row as the bounds say. Those beyond the lower
bound are nested options, or a single one with a star. -/
def copies (min : Nat) : Option Nat → List Instr
  | none => List.replicate min .dup ++ .unary .star :: List.replicate min .seq
  | some max =>
    if min < max then
      List.replicate (max - 1) .dup ++ .unary .optional ::
        ((List.replicate (max - min - 1) [.seq, .unary .optional]).flatten ++
          List.replicate min .seq)
    else List.replicate (max - 1) .dup ++ List.replicate (min - 1) .seq

open Piece (push joined single)

/-- The pieces of a tree as a sequence, the latest one first. A tree that is no sequence is one
piece. -/
def Tree.pieces : Tree → List Piece
  | plain c => [.run [c]]
  | escape c => [.operand [.text (String.ofList [c])]]
  | any => [.operand [.any]]
  | set ranges inverted => [.operand [.set ranges inverted]]
  | group report t => [.operand (joined t.pieces ++ if report then [.group] else [])]
  | unary op t => [.operand (joined t.pieces ++ [.unary op])]
  | times min max t => [.operand (joined t.pieces ++ copies min max)]
  | seq s t => push s.pieces (single t.pieces)
  | or s t => [.operand (joined s.pieces ++ joined t.pieces ++ [.or])]

/-- The instructions of a tree. -/
def Tree.calls (t : Tree) : List Instr :=
  joined t.pieces

namespace Tree

theorem pieces_ne_nil (t : Tree) : t.pieces ≠ [] := by
  cases t with
  | seq s t => exact Piece.push_ne_nil _ _
  | _ => exact List.cons_ne_nil _ _

/-- The instructions of a group come behind those of what is in it. -/
theorem calls_group (report : Bool) (t : Tree) :
    (group report t).calls = t.calls ++ if report then [.group] else [] :=
  rfl

theorem calls_times (min : Nat) (max : Option Nat) (t : Tree) :
    (times min max t).calls = t.calls ++ copies min max :=
  rfl

theorem calls_or (s t : Tree) : (or s t).calls = s.calls ++ t.calls ++ [.or] :=
  rfl

/-- Unless two rows of characters meet, the parts of a sequence come one after the other. -/
theorem calls_seq {s t : Tree}
    (h : Piece.push s.pieces (single t.pieces) = single t.pieces :: s.pieces) :
    (seq s t).calls = s.calls ++ t.calls ++ [.seq] := by
  rw [calls, pieces, h, Piece.joined_cons s.pieces_ne_nil, Piece.calls_single]
  rfl

/-- Two characters in a row are one text, and an operator applies to the second one alone. -/
example : (seq (plain 'a') (plain 'b')).calls = [.text "ab"] ∧
    (seq (plain 'a') (unary .star (plain 'b'))).calls =
      [.text "a", .text "b", .unary .star, .seq] :=
  ⟨rfl, rfl⟩

end Tree

/-! ## Stretches -/

namespace Stretch

/-- The instructions of stretches without abbreviation. -/
def expandAll (stretches : List Stretch) : List Instr :=
  stretches.flatMap expand

theorem expandAll_append (stretches stretches' : List Stretch) :
    expandAll (stretches ++ stretches') = expandAll stretches ++ expandAll stretches' :=
  List.flatMap_append

theorem expandAll_single (instr : Instr) (position : Nat) :
    expandAll [single instr position] = [instr] :=
  rfl

theorem expand_one (instr : Instr) (times position : Nat) :
    expand ⟨[instr], times, position⟩ = List.replicate times instr := by
  rw [expand, List.flatten_replicate_singleton]

end Stretch

/-- A repetition turns the operand on top into copies. -/
theorem expandAll_repetition (min : Nat) (max : Option Nat) (position : Nat) :
    Stretch.expandAll (repetition min max position) = copies min max := by
  cases max with
  | none =>
    simp only [repetition, unbounded, Stretch.expandAll, List.flatMap_cons, List.flatMap_nil,
      Stretch.expand_one, Stretch.single, List.append_nil, copies]
    rfl
  | some max =>
    rw [repetition, bounded, copies]
    split
    · simp only [Stretch.expandAll, List.flatMap_cons, List.flatMap_nil, Stretch.expand_one,
        Stretch.single, List.append_nil]
      rfl
    · simp only [Stretch.expandAll, List.flatMap_cons, List.flatMap_nil, Stretch.expand_one,
        List.append_nil]

end Pattern

end LongestMatch
