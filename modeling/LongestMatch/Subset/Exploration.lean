import LongestMatch.Intervals
import LongestMatch.Subset.Closure
import LongestMatch.Subset.Numbering
import LongestMatch.Table

/-!
# The subset construction

The states of the deterministic automaton are sets of states of the given one: the closure of the
start, and whatever set a character leads to from a set met before. `Nfa.exploreSubsets` numbers
these sets by discovery; a set that no kept state belongs to is not a state. There are finitely many
sets, so the numbering ends.

The edges of a set are kept as a transition table, and whoever needs them as transitions reads the
table back (`Nfa.rowOf`).
-/

namespace LongestMatch

/-- All the lists that are left when entries of a list are taken out. -/
def sublistsOf {α : Type} : List α → List (List α)
  | [] => [[]]
  | a :: rest => sublistsOf rest ++ (sublistsOf rest).map (a :: ·)

/-- `sublistsOf` misses none. -/
theorem mem_sublistsOf {α : Type} {list whole : List α} (h : list.Sublist whole) :
    list ∈ sublistsOf whole := by
  induction h with
  | slnil => exact List.mem_singleton.2 rfl
  | cons a _ ih => exact List.mem_append.2 (Or.inl ih)
  | cons_cons a _ ih => exact List.mem_append.2 (Or.inr (List.mem_map.2 ⟨_, ih, rfl⟩))

namespace Nfa

/-- Adds a target to those a run of characters has already. -/
def addTarget (target : Nat) (targets : Option (List Nat)) : Option (List Nat) :=
  let known := targets.getD []
  some (if target ∈ known then known else known ++ [target])

/-- Where the states of a set lead, as a partition of the code points. -/
def targetsOf (nfa : Nfa) (set : List Nat) : Intervals (List Nat) :=
  set.foldl
    (fun iv id =>
      (nfa.state id).trans.foldl
        (fun iv t => iv.update t.lo.toNat t.hi.toNat (addTarget t.target)) iv)
    Intervals.unset

/-- The closures of the targets of each run of characters; runs that lead nowhere are left out. -/
def closures (nfa : Nfa) (accept : Option Nat) (storage : StateSet nfa.states.size) :
    List (Segment (List Nat)) → List (CharRange × List Nat)
  | [] => []
  | s :: rest =>
    match s.value, CharRange.ofCodes? s.lo s.hi with
    | some targets, some range =>
      let (set, storage) := nfa.closure accept storage targets
      if set.isEmpty then closures nfa accept storage rest
      else (range, set) :: closures nfa accept storage rest
    | _, _ => closures nfa accept storage rest

/-- The sets that single characters lead to from a set. -/
def successors (nfa : Nfa) (accept : Option Nat) (set : List Nat) :
    List (CharRange × List Nat) :=
  nfa.closures accept (StateSet.empty nfa.states.size) (nfa.targetsOf set).segments

/-- A closure is a sublist of all the states. -/
theorem closure_sublist (nfa : Nfa) (accept : Option Nat) (storage : StateSet nfa.states.size)
    (seeds : List Nat) :
    (nfa.closure accept storage seeds).1.Sublist (List.range nfa.states.size) :=
  List.filter_sublist

/-- So is every set that a character leads to. -/
theorem successors_sublist (nfa : Nfa) (accept : Option Nat) (set : List Nat) :
    ∀ e ∈ nfa.successors accept set, e.2.Sublist (List.range nfa.states.size) := by
  suffices ∀ (runs : List (Segment (List Nat))) (storage : StateSet nfa.states.size),
      ∀ e ∈ nfa.closures accept storage runs, e.2.Sublist (List.range nfa.states.size) from
    this _ _
  intro runs
  induction runs with
  | nil => intro _ e h; cases h
  | cons s rest ih =>
    intro storage e h
    rw [closures] at h
    split at h
    · next targets range _ _ =>
      simp only at h
      split at h
      · exact ih _ e h
      · rcases List.mem_cons.1 h with rfl | later
        · exact closure_sublist nfa accept storage targets
        · exact ih _ e later
    · exact ih _ e h

/-- The sets of states that strings lead to, numbered by discovery, with edges by ranges of
characters. The set at number 0 is the one of the empty string. -/
def exploreSubsets (nfa : Nfa) (accept : Option Nat) : Numbering (List Nat) CharRange :=
  Numbering.explore (nfa.successors accept)
    ⟨sublistsOf (List.range nfa.states.size),
      fun set e h => mem_sublistsOf (nfa.successors_sublist accept set e h)⟩
    (Numbering.start
      (nfa.closure accept (StateSet.empty nfa.states.size) [nfa.start]).1)

/-- The edges of one number as transitions, neighbours joined. -/
def transitionsOf (edges : List (CharRange × Nat)) : List Transition :=
  Transition.join (edges.map fun e => ⟨e.1, e.2⟩)

/-- The edges of one number as a table. -/
def tableOf (nfa : Nfa) (edges : List (CharRange × Nat)) : Table :=
  Table.build nfa.config (transitionsOf edges)

/-- The edges of one number as read back from their table. -/
def rowOf (nfa : Nfa) (edges : List (CharRange × Nat)) : List Transition :=
  (nfa.tableOf edges).transitions

end Nfa

end LongestMatch
