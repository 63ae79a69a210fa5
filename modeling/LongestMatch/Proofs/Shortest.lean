import LongestMatch.Dfa.Search
import Mathlib.Data.Set.Insert
import Mathlib.Logic.Relation

/-!
# The search finds shortest ways

Everything that the transitions of a graph lead to is found, by as few of them as possible.

A breadth-first search leaves its states in the order of their depth, so while it follows the
transitions of one state, nothing that was found is more than one transition farther away
(`Search.Sweep`). Where no state is left to be left, a transition leads at most one deeper
(`Search.Sweep.exists_visit`), and `wayTo` is the way that the depth counts (`Search.way_wayTo`).
-/

namespace LongestMatch

namespace Search

variable {rows : Array (List Transition)} {s : Search} {source d : Nat} {t : Transition}

/-- Transitions one after another that lead from state 0 to a state. -/
inductive Way (rows : Array (List Transition)) : List Transition → Nat → Prop
  | nil : Way rows [] 0
  | snoc {ts : List Transition} {i : Nat} {t : Transition} :
      Way rows ts i → t ∈ rows.getD i [] → Way rows (ts ++ [t]) t.target

/-- The target of a transition was found, at most one transition deeper than here. -/
def Followed (s : Search) (d : Nat) (t : Transition) : Prop :=
  ∃ v, s.visit? t.target = some v ∧ v.depth ≤ d + 1

theorem Followed.follow {t' : Transition} (h : s.Followed d t') :
    (s.follow source t).Followed d t' := by
  obtain ⟨v, hv, hle⟩ := h
  exact ⟨v, visit?_follow_of_eq_some hv, hle⟩

/-- The search has come to the states that are so many transitions away. The states in the queue
are no nearer, and none that was found is more than one transition farther. All that were found and
have left the queue, except those that are busy, have had their transitions followed. -/
structure Sweep (rows : Array (List Transition)) (s : Search) (d : Nat) (busy : Set Nat) :
    Prop where
  size : s.visits.size = rows.size
  zero : s.visit? 0 = some ⟨0, none⟩
  queued : ∀ i ∈ s.queue, ∃ v, s.visit? i = some v ∧ d ≤ v.depth
  sorted : s.queue.Pairwise fun i j => s.depth i ≤ s.depth j
  bounded : ∀ i v, s.visit? i = some v → v.depth ≤ d + 1
  followed : ∀ i v, s.visit? i = some v → i ∉ s.queue → i ∉ busy →
    ∀ t ∈ rows.getD i [], s.Followed v.depth t

theorem sweep_start (hsize : 0 < rows.size) : (start rows.size).Sweep rows 0 ∅ where
  size := by rw [start, Array.size_setIfInBounds, Array.size_replicate]
  zero := by rw [visit?_start, if_pos ⟨rfl, hsize⟩]
  queued i hi := by
    obtain rfl := List.mem_singleton.1 hi
    exact ⟨_, by rw [visit?_start, if_pos ⟨rfl, hsize⟩], Nat.le_refl 0⟩
  sorted := List.pairwise_singleton _ _
  bounded i v hv := by
    rw [visit?_start, Option.ite_none_right_eq_some] at hv
    obtain rfl := Option.some.inj hv.2
    exact Nat.zero_le 1
  followed i v hv hi := by
    rw [visit?_start, Option.ite_none_right_eq_some] at hv
    obtain ⟨⟨rfl, -⟩, -⟩ := hv
    exact absurd (List.mem_singleton.2 rfl) hi

/-- A state leaves the queue, and its transitions are to be followed. -/
theorem Sweep.leave {rest : List Nat} (h : s.Sweep rows d ∅) (hqueue : s.queue = source :: rest) :
    Sweep rows { s with queue := rest } (s.depth source) {source} := by
  obtain ⟨v, hv, hd⟩ := h.queued source (by rw [hqueue]; exact List.mem_cons_self)
  have hsorted := h.sorted
  rw [hqueue, List.pairwise_cons] at hsorted
  refine ⟨h.size, h.zero, fun i hi => ?_, hsorted.2, fun i u hu => ?_, fun i u hu hi hbusy => ?_⟩
  · obtain ⟨u, hu, -⟩ := h.queued i (by rw [hqueue]; exact List.mem_cons_of_mem _ hi)
    exact ⟨u, hu, by rw [← depth_eq hu]; exact hsorted.1 i hi⟩
  · rw [depth_eq hv]
    exact (h.bounded i u hu).trans (Nat.succ_le_succ hd)
  · refine h.followed i u hu ?_ (Set.notMem_empty i)
    rw [hqueue, List.mem_cons, not_or]
    exact ⟨hbusy, hi⟩

theorem depth_follow {i : Nat} {v : Visit} (h : s.visit? i = some v) :
    (s.follow source t).depth i = s.depth i := by
  rw [depth_eq (visit?_follow_of_eq_some h), depth_eq h]

/-- A transition of the state that was left finds its target. -/
theorem Sweep.follow_of_new (h : s.Sweep rows d {source}) {u : Visit}
    (hsource : s.visit? source = some u) (hd : u.depth = d)
    (hnew : s.visits[t.target]? = some none) :
    (s.follow source t).Sweep rows d {source} ∧ (s.follow source t).Followed d t := by
  have hdepth : s.depth source = d := (depth_eq hsource).trans hd
  have hvisit : (s.follow source t).visit? t.target = some ⟨d + 1, some (source, t)⟩ := by
    rw [visit?_follow hnew, if_pos rfl, hdepth]
  have hqueue : (s.follow source t).queue = s.queue ++ [t.target] := by rw [follow_eq_visit hnew]
  refine ⟨⟨?_, visit?_follow_of_eq_some h.zero, fun i hi => ?_, ?_, fun i v hv => ?_,
    fun i v hv hi hbusy => ?_⟩, _, hvisit, Nat.le_refl _⟩
  · rw [follow_eq_visit hnew, Array.size_setIfInBounds, h.size]
  · rw [hqueue, List.mem_append, List.mem_singleton] at hi
    rcases hi with hi | rfl
    · obtain ⟨v, hv, hle⟩ := h.queued i hi
      exact ⟨v, visit?_follow_of_eq_some hv, hle⟩
    · exact ⟨_, hvisit, Nat.le_succ d⟩
  · -- the target is as deep as any state can be by now, and it comes last
    have hkept : ∀ i ∈ s.queue, (s.follow source t).depth i = s.depth i := by
      intro i hi
      obtain ⟨v, hv, -⟩ := h.queued i hi
      exact depth_follow hv
    rw [hqueue, List.pairwise_append]
    refine ⟨?_, List.pairwise_singleton _ _, fun i hi j hj => ?_⟩
    · refine h.sorted.imp_of_mem fun {i j} hi hj hle => ?_
      rw [hkept i hi, hkept j hj]
      exact hle
    · obtain rfl := List.mem_singleton.1 hj
      obtain ⟨v, hv, -⟩ := h.queued i hi
      rw [hkept i hi, depth_eq hv, depth_eq hvisit]
      exact h.bounded i v hv
  · rcases visit?_follow_cases hnew hv with ⟨-, rfl⟩ | hv
    · exact (congrArg (· + 1) hdepth).le
    · exact h.bounded i v hv
  · rw [hqueue, List.mem_append, List.mem_singleton, not_or] at hi
    rcases visit?_follow_cases hnew hv with ⟨heq, -⟩ | hv
    · exact absurd heq hi.2
    · intro t' ht'
      exact (h.followed i v hv hi.1 hbusy t' ht').follow

/-- The target of any other transition was found before. -/
theorem Sweep.followed_of_not_new {busy : Set Nat} (h : s.Sweep rows d busy)
    (ht : t.target < rows.size) (hnew : s.visits[t.target]? ≠ some none) : s.Followed d t := by
  rw [← h.size] at ht
  rw [Array.getElem?_eq_getElem ht, ne_eq, Option.some.injEq] at hnew
  obtain ⟨v, hget⟩ := Option.ne_none_iff_exists'.1 hnew
  have hv : s.visit? t.target = some v := by
    rw [visit?, Array.getD_eq_getD_getElem?, Array.getElem?_eq_getElem ht, Option.getD_some, hget]
  exact ⟨v, hv, h.bounded _ v hv⟩

theorem Sweep.follow (h : s.Sweep rows d {source}) {u : Visit} (hsource : s.visit? source = some u)
    (hd : u.depth = d) (ht : t.target < rows.size) :
    (s.follow source t).Sweep rows d {source} ∧ (s.follow source t).Followed d t := by
  by_cases hnew : s.visits[t.target]? = some none
  · exact h.follow_of_new hsource hd hnew
  · rw [follow_eq_self hnew]
    exact ⟨h, h.followed_of_not_new ht hnew⟩

theorem Sweep.foldl_follow {ts : List Transition} (h : s.Sweep rows d {source}) {u : Visit}
    (hsource : s.visit? source = some u) (hd : u.depth = d)
    (hts : ∀ t ∈ ts, t.target < rows.size) :
    (ts.foldl (Search.follow source) s).Sweep rows d {source} ∧
      ∀ t ∈ ts, (ts.foldl (Search.follow source) s).Followed d t := by
  induction ts generalizing s with
  | nil => exact ⟨h, fun t ht => absurd ht List.not_mem_nil⟩
  | cons t ts ih =>
    obtain ⟨ht, hts⟩ := List.forall_mem_cons.1 hts
    obtain ⟨hsweep, v, hv, hle⟩ := h.follow hsource hd ht
    obtain ⟨hsweep, hrest⟩ := ih hsweep (visit?_follow_of_eq_some hsource) hts
    rw [List.foldl_cons]
    exact ⟨hsweep, List.forall_mem_cons.2 ⟨⟨v, visit?_foldl_follow_of_eq_some hv, hle⟩, hrest⟩⟩

/-- The transitions of the state that was left have been followed. -/
theorem Sweep.settle (h : s.Sweep rows d {source}) {u : Visit} (hsource : s.visit? source = some u)
    (hd : u.depth = d) (hdone : ∀ t ∈ rows.getD source [], s.Followed d t) : s.Sweep rows d ∅ := by
  refine ⟨h.size, h.zero, h.queued, h.sorted, h.bounded, fun i v hv hi _ => ?_⟩
  by_cases heq : i = source
  · subst heq
    obtain rfl := Option.some.inj (hsource.symm.trans hv)
    rw [hd]
    exact hdone
  · exact h.followed i v hv hi heq

section Inside

variable (hrows : ∀ i, ∀ t ∈ rows.getD i [], t.target < rows.size)

include hrows

/-- One turn of the search: a state leaves the queue, and its transitions are followed. -/
theorem Sweep.turn {rest : List Nat} (h : s.Sweep rows d ∅) (hqueue : s.queue = source :: rest) :
    ((rows.getD source []).foldl (Search.follow source) { s with queue := rest }).Sweep rows
      (s.depth source) ∅ := by
  obtain ⟨u, hu, -⟩ := h.queued source (by rw [hqueue]; exact List.mem_cons_self)
  have hd : u.depth = s.depth source := (depth_eq hu).symm
  obtain ⟨hsweep, hdone⟩ := (h.leave hqueue).foldl_follow hu hd (hrows source)
  exact hsweep.settle (visit?_foldl_follow_of_eq_some hu) hd hdone

theorem Sweep.run (h : s.Sweep rows d ∅) :
    (∃ d, (s.run rows).Sweep rows d ∅) ∧ (s.run rows).queue = [] := by
  fun_induction Search.run rows s generalizing d with
  | case1 s hqueue => exact ⟨⟨d, h⟩, hqueue⟩
  | case2 s source rest hqueue ih => exact ih (h.turn hrows hqueue)

end Inside

/-- Where no state is left to be left, everything that a way leads to was found. -/
theorem Sweep.exists_visit (h : s.Sweep rows d ∅) (hqueue : s.queue = []) {ts : List Transition}
    {i : Nat} (hway : Way rows ts i) : ∃ v, s.visit? i = some v ∧ v.depth ≤ ts.length := by
  induction hway with
  | nil => exact ⟨_, h.zero, Nat.le_refl 0⟩
  | @snoc ts i t _ ht ih =>
    obtain ⟨v, hv, hle⟩ := ih
    have hi : i ∉ s.queue := by
      rw [hqueue]
      exact List.not_mem_nil
    obtain ⟨u, hu, hdepth⟩ := h.followed i v hv hi (Set.notMem_empty i) t ht
    refine ⟨u, hu, ?_⟩
    rw [List.length_append, List.length_singleton]
    exact hdepth.trans (Nat.succ_le_succ hle)

/-! ## The way back -/

/-- The parent of a state is the one that it was found from. -/
def Parent (s : Search) (i j : Nat) : Prop :=
  ∃ t, s.edge? i = some (j, t)

/-- Walking back from a state that was found gives a way to it, as long as the state is deep, and
ends at state 0. -/
theorem way_wayTo (h : s.Linked rows) {i : Nat} {v : Visit} (hv : s.visit? i = some v) :
    Way rows (s.wayTo h i) i ∧ (s.wayTo h i).length = v.depth ∧
      Relation.ReflTransGen s.Parent i 0 := by
  fun_induction s.wayTo h i generalizing v with
  | case1 i hedge =>
    rw [edge?, hv, Option.bind_some] at hedge
    obtain ⟨rfl, hdepth⟩ := h.root i v hv hedge
    exact ⟨.nil, hdepth.symm, .refl⟩
  | case2 i source t hedge ih =>
    have hparent : s.Parent i source := ⟨t, hedge⟩
    rw [edge?, hv, Option.bind_some] at hedge
    obtain ⟨ht, rfl, u, hu, hdepth⟩ := h.edge i v source t hv hedge
    obtain ⟨hway, hlength, hback⟩ := ih hu
    refine ⟨hway.snoc ht, ?_, .head hparent hback⟩
    rw [List.length_append, List.length_singleton, hlength, hdepth]

section Complete

variable (hsize : 0 < rows.size) (hrows : ∀ i, ∀ t ∈ rows.getD i [], t.target < rows.size)

include hsize hrows

/-- The search ends with everything that ways lead to, and with shortest ways to it. -/
theorem shortest {ts : List Transition} {i : Nat} (hway : Way rows ts i) :
    Way rows ((ofRows rows).wayTo (linked_ofRows rows) i) i ∧
      ((ofRows rows).wayTo (linked_ofRows rows) i).length = (ofRows rows).depth i ∧
      (ofRows rows).depth i ≤ ts.length ∧ Relation.ReflTransGen (ofRows rows).Parent i 0 := by
  obtain ⟨⟨d, hsweep⟩, hqueue⟩ := (sweep_start hsize).run hrows
  obtain ⟨v, hv, hle⟩ := hsweep.exists_visit hqueue hway
  obtain ⟨hback, hlength, hparents⟩ := way_wayTo (linked_ofRows rows) hv
  have hdepth : (ofRows rows).depth i = v.depth := depth_eq hv
  exact ⟨hback, hlength.trans hdepth.symm, hdepth.trans_le hle, hparents⟩

/-- The walk back ends at state 0. -/
theorem edge?_zero : (ofRows rows).edge? 0 = none := by
  obtain ⟨⟨d, hsweep⟩, -⟩ := (sweep_start hsize).run hrows
  rw [edge?, ofRows, hsweep.zero]
  rfl

end Complete

end Search

end LongestMatch
