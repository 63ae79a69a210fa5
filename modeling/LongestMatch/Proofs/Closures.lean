import LongestMatch.Proofs.Histories
import LongestMatch.Proofs.WorkList

/-!
# Closures are canonical

A closure is computed with a work list over silent edges, which may run in circles, in storage that
has served other closures before. Neither the storage nor the order in which the states are met is
left in the result: it is the list, in ascending order, of the states that count among those that
the seeds lead to (`Nfa.closure_canonical`). So sets of states can be told apart by their lists.
-/

namespace LongestMatch

theorem State.isImportant_iff {s : State} :
    s.isImportant = true ↔ s.trans ≠ [] ∨ s.action ≠ none ∨ s.marks.entries ≠ [] := by
  simp [isImportant, Marks.isEmpty, ← Option.isSome_iff_ne_none, or_assoc]

namespace Nfa

variable {nfa : Nfa} {accept : Option Nat} {storage : StateSet nfa.states.size} {seeds : List Nat}
  {q : Nat}

/-- Silent edges, none included, lead from one of the seeds to a state. -/
def ReachedFrom (nfa : Nfa) (seeds : List Nat) (q : Nat) : Prop :=
  ∃ p ∈ seeds, Relation.ReflTransGen (fun a b => b ∈ (nfa.state a).eps) p q

/-- A state counts if it is the accepting one, or if it has transitions, an action or markers. -/
def Counts (nfa : Nfa) (accept : Option Nat) (q : Nat) : Prop :=
  accept = some q ∨ (nfa.state q).trans ≠ [] ∨ (nfa.state q).action ≠ none ∨
    (nfa.state q).marks.entries ≠ []

/-- The storage after closures have been computed in it, one after another. -/
def storageAfter (nfa : Nfa) (accept : Option Nat) (storage : StateSet nfa.states.size)
    (calls : List (List Nat)) : StateSet nfa.states.size :=
  calls.foldl (fun storage seeds => (nfa.closure accept storage seeds).2) storage

theorem isKept_iff : nfa.isKept accept q = true ↔ nfa.Counts accept q := by
  rw [isKept, Bool.or_eq_true, beq_iff_eq, State.isImportant_iff, Counts]

theorem mem_closure_iff : q ∈ (nfa.closure accept storage seeds).1 ↔
    q < nfa.states.size ∧ nfa.Counts accept q ∧ nfa.ReachedFrom seeds q := by
  rw [mem_closure, isKept_iff]
  simp only [trail_nil_iff]
  rfl

theorem pairwise_closure : (nfa.closure accept storage seeds).1.Pairwise (· < ·) :=
  List.pairwise_lt_range.sublist (closure_sublist nfa accept storage seeds)

/-- The list is what the search has met, less what does not count, put in order. -/
theorem closure_perm (storage : StateSet nfa.states.size) (seeds : List Nat) :
    (nfa.closure accept storage seeds).1.Perm
      ((nfa.closure accept storage seeds).2.toList.filter (nfa.isKept accept)) := by
  have hs : (nfa.closure accept storage seeds).2.Coherent :=
    StateSet.coherent_reach storage (fun id => (nfa.state id).eps) seeds
  have hset : (nfa.closure accept storage seeds).1.Nodup :=
    pairwise_closure.imp fun h => Nat.ne_of_lt h
  have hmet := (StateSet.nodup_toList hs).filter (nfa.isKept accept)
  rw [List.perm_ext_iff_of_nodup hset hmet]
  intro q
  rw [List.mem_filter, StateSet.mem_toList hs, closure, List.mem_filter, Bool.and_eq_true,
    List.mem_range, and_iff_right_of_imp fun h => StateSet.lt_of_contains h.1]

/-- Closures are exact and canonical. Whatever the storage holds, and whatever closures have been
computed in it, the search along silent edges is over after at most one turn for each state. Its
result is what it has met, less the states that do not count, in strictly ascending order: exactly
the states that count among those that silent edges lead to from the seeds. Seeds that lead to the
same states that count have the same list, in whatever storage. -/
theorem closure_canonical (nfa : Nfa) (accept : Option Nat) (storage : StateSet nfa.states.size)
    (earlier : List (List Nat)) (seeds : List Nat) :
    let used := nfa.storageAfter accept storage earlier
    let set := (nfa.closure accept used seeds).1
    let seen := (nfa.closure accept used seeds).2
    (∃ turns ≤ nfa.states.size,
      let start := used.clear.pushAll [] seeds
      StateSet.Ends (fun id => (nfa.state id).eps) start.1 start.2 turns seen) ∧
    set.Perm (seen.toList.filter (nfa.isKept accept)) ∧
    set.Pairwise (· < ·) ∧
    (∀ q, q ∈ set ↔
      q < nfa.states.size ∧ nfa.Counts accept q ∧ nfa.ReachedFrom seeds q) ∧
    ∀ seeds', (∀ q < nfa.states.size, nfa.Counts accept q →
      (nfa.ReachedFrom seeds' q ↔ nfa.ReachedFrom seeds q)) →
      ∀ storage', (nfa.closure accept storage' seeds').1 = set := by
  intro used set seen
  refine ⟨⟨seen.size, seen.size_le, StateSet.ends_reach ..⟩, closure_perm used seeds,
    pairwise_closure, fun q => mem_closure_iff, fun seeds' hsame storage' => ?_⟩
  refine eq_of_same_members (closure_sublist ..) (closure_sublist ..) fun q => ?_
  rw [mem_closure_iff, mem_closure_iff]
  exact and_congr_right fun hq => and_congr_right fun hcounts => hsame q hq hcounts

/-- States 0 and 1 are a circle of silent edges that leads to state 2, so both have its list. -/
example :
    let nfa : Nfa :=
      { states := #[{ eps := [1] }, { eps := [0, 2] }, { trans := [⟨.single 'a', 0⟩] }]
        start := 0
        last := 2 }
    (nfa.closure none (.empty 3) [0]).1 = [2] ∧ (nfa.closure none (.empty 3) [1]).1 = [2] := by
  decide +kernel

end Nfa

end LongestMatch
