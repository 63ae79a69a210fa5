import LongestMatch.Proofs.Reach

/-!
# A set of states over its lifetime

A set of states is cleared far more often than it is made, and its arrays are never wiped. Over any
history of insertions and clearings it holds the numbers that came in since it was last cleared, in
the order in which they first came (`StateSet.Holds`). One operation keeps this (`Holds.apply`), so
a history does (`Holds.run`); it is put together in `StateSet.members_since_clear`.

A work list uses such a set to tell what it has met. Turn by turn it comes to its end, each state is
expanded once, and what it has met by then is what `saturate` gives (`ends_saturate`, `ends_reach`).
-/

namespace LongestMatch

namespace StateSet

variable {n : Nat}

/-! ## Histories -/

/-- What may be asked of a set: to take a number in, or to forget all of them. -/
inductive Op where
  | insert (id : Nat)
  | clear

/-- The set after an operation. -/
def apply (s : StateSet n) : Op → StateSet n
  | .insert id => (s.insert id).1
  | .clear => s.clear

/-- The set after a history of operations. -/
def run (s : StateSet n) (ops : List Op) : StateSet n :=
  ops.foldl apply s

/-- The numbers to be inserted since the last clearing, after one more operation. -/
def Op.note (ids : List Nat) : Op → List Nat
  | .insert id => ids ++ [id]
  | .clear => []

/-- The numbers that a history inserts since its last clearing, repetitions included. -/
def sinceClear (ops : List Op) : List Nat :=
  ops.foldl Op.note []

/-- The set is in order, and its members are the numbers of a list as they first come. -/
structure Holds (s : StateSet n) (ids : List Nat) : Prop where
  coherent : s.Coherent
  toList_eq : s.toList = ids.eraseDups

section Holds

variable {s : StateSet n} {ids : List Nat} {id : Nat} {ops : List Op}

theorem holds_nil (h : s.size = 0) : s.Holds [] :=
  ⟨coherent_of_size_zero h, by simp [toList, h]⟩

theorem Holds.contains_iff (h : s.Holds ids) : s.contains id = true ↔ id ∈ ids := by
  rw [← mem_toList h.coherent, h.toList_eq, List.mem_eraseDups]

theorem Holds.insert_new_iff (h : s.Holds ids) (hid : id < n) :
    (s.insert id).2 = true ↔ id ∉ ids := by
  rw [StateSet.insert_new_iff h.coherent, and_iff_right hid, ← h.contains_iff, Bool.not_eq_true]

theorem eraseDups_concat (ids : List Nat) (id : Nat) :
    (ids ++ [id]).eraseDups = if id ∈ ids then ids.eraseDups else ids.eraseDups ++ [id] := by
  rw [List.eraseDups_append]
  by_cases h : id ∈ ids
  · simp [List.removeAll, h]
  · simp [List.removeAll, h, List.eraseDups_cons]

theorem Holds.insert (h : s.Holds ids) (hid : id < n) :
    (s.insert id).1.Holds (ids ++ [id]) := by
  refine ⟨coherent_insert h.coherent id, ?_⟩
  rw [toList_insert h.coherent, eraseDups_concat, h.toList_eq]
  by_cases hmem : id ∈ ids
  · rw [if_pos hmem, if_neg fun hnew => (h.insert_new_iff hid).1 hnew hmem]
  · rw [if_neg hmem, if_pos ((h.insert_new_iff hid).2 hmem)]

/-- One operation: what is held is what has been noted. -/
theorem Holds.apply (h : s.Holds ids) (op : Op) (hop : ∀ id, op = .insert id → id < n) :
    (s.apply op).Holds (op.note ids) := by
  cases op with
  | insert id => exact h.insert (hop id rfl)
  | clear => exact holds_nil rfl

/-- A whole history. -/
theorem Holds.run (h : s.Holds ids) (hops : ∀ id, .insert id ∈ ops → id < n) :
    (s.run ops).Holds (ops.foldl Op.note ids) := by
  induction ops generalizing s ids with
  | nil => exact h
  | cons op ops ih =>
    have hop : ∀ id, op = .insert id → id < n := by
      rintro id rfl
      exact hops id (List.mem_cons_self ..)
    exact ih (h.apply op hop) fun id hid => hops id (List.mem_cons_of_mem _ hid)

/-- A number that is not there finds a free place behind the members, and its entry points there. -/
theorem Holds.insert_of_notMem (h : s.Holds ids) (hid : id < n) (hmem : id ∉ ids) :
    ∃ hroom : s.size < n, s.insert id =
      (⟨s.dense.set s.size id hroom, s.sparse.set id s.size hid, s.size + 1, hroom⟩, true) := by
  rcases insert_cases h.coherent id with ⟨hold | hge, -⟩ | ⟨-, _, hroom, heq⟩
  · exact absurd (h.contains_iff.1 hold) hmem
  · omega
  · exact ⟨hroom, heq⟩

theorem Holds.insert_of_mem (h : s.Holds ids) (hmem : id ∈ ids) : s.insert id = (s, false) :=
  if_pos (h.contains_iff.2 hmem)

end Holds

/-- Begun without members, whatever its arrays hold, a set that goes through a history of clearings
and of insertions of numbers below its capacity has these members: the numbers inserted since the
last clearing, each once and in the order in which they first came. Nothing from before that
clearing is taken for a member. The next insertion tells whether the number is missing. If it is,
there is a free place, where the number is entered, and nothing else in `dense` is written; a number
that is there leaves the set as it is. -/
theorem members_since_clear (s₀ : StateSet n) (hfresh : s₀.size = 0) (ops : List Op)
    (hops : ∀ id, .insert id ∈ ops → id < n) :
    let s := s₀.run ops
    let ids := sinceClear ops
    s.toList = ids.eraseDups ∧ s.toList.Nodup ∧
    (∀ id, s.contains id = true ↔ id ∈ ids) ∧
    ∀ id (hid : id < n),
      ((s.insert id).2 = true ↔ id ∉ ids) ∧
      (id ∈ ids → s.insert id = (s, false)) ∧
      (id ∉ ids → ∃ hroom : s.size < n, s.insert id =
        (⟨s.dense.set s.size id hroom, s.sparse.set id s.size hid, s.size + 1, hroom⟩, true)) := by
  intro s ids
  have h : s.Holds ids := (holds_nil hfresh).run hops
  refine ⟨h.toList_eq, nodup_toList h.coherent, fun id => h.contains_iff, fun id hid => ?_⟩
  exact ⟨h.insert_new_iff hid, h.insert_of_mem, h.insert_of_notMem hid⟩

/-- The entries of 3 and 0 are left over, and point at places that are in use again. -/
theorem members_since_clear_leftover :
    let s := (empty 8).run
      [.insert 3, .insert 3, .insert 0, .clear, .insert 5, .insert 7, .insert 5]
    s.sparse[3] = 0 ∧ s.sparse[0] = 1 ∧ s.toList = [5, 7] ∧
      s.contains 3 = false ∧ s.contains 0 = false ∧ (s.insert 0).2 = true := by
  intro s
  obtain ⟨hlist, -, hcontains, hinsert⟩ := members_since_clear (empty 8) rfl
    [.insert 3, .insert 3, .insert 0, .clear, .insert 5, .insert 7, .insert 5] (by simp)
  have hids : sinceClear
      [.insert 3, .insert 3, .insert 0, .clear, .insert 5, .insert 7, .insert 5] = [5, 7, 5] := rfl
  rw [hids] at hlist hcontains hinsert
  refine ⟨rfl, rfl, hlist.trans rfl, ?_, ?_, ?_⟩
  · rw [← Bool.not_eq_true, hcontains]
    simp
  · rw [← Bool.not_eq_true, hcontains]
    simp
  · exact (hinsert 0 (by decide)).1.2 (by simp)

/-! ## Turns of a work list -/

/-- Begun with `seen` and `stack`, the work list is empty after `count` turns, each of which expands
the number on top, and `last` has been met by then. -/
inductive Ends (next : Nat → List Nat) : StateSet n → List Nat → Nat → StateSet n → Prop where
  | done {seen : StateSet n} : Ends next seen [] 0 seen
  | turn {seen last : StateSet n} {id count : Nat} {rest : List Nat} :
      Ends next (seen.pushAll rest (next id)).1 (seen.pushAll rest (next id)).2 count last →
      Ends next seen (id :: rest) (count + 1) last

/-- Each number is expanded once: those that wait, and those that are met. -/
theorem ends_saturate (next : Nat → List Nat) (seen : StateSet n) (stack : List Nat) :
    ∃ count, Ends next seen stack count (seen.saturate next stack) ∧
      count + seen.size = (seen.saturate next stack).size + stack.length := by
  fun_induction saturate next seen stack with
  | case1 seen => exact ⟨0, .done, by simp⟩
  | case2 seen id rest work ih =>
    obtain ⟨count, hends, hcount⟩ := ih
    refine ⟨count + 1, .turn hends, ?_⟩
    have hbudget : n - work.1.size + work.2.length = n - seen.size + rest.length :=
      budget_pushAll seen rest (next id)
    have hle := seen.size_le
    have hle' := work.1.size_le
    rw [List.length_cons]
    omega

/-- What is reached from roots takes one turn for each of its members. -/
theorem ends_reach (storage : StateSet n) (next : Nat → List Nat) (roots : List Nat) :
    Ends next (storage.clear.pushAll [] roots).1 (storage.clear.pushAll [] roots).2
      (storage.reach next roots).size (storage.reach next roots) := by
  obtain ⟨count, hends, hcount⟩ := ends_saturate next (storage.clear.pushAll [] roots).1
    (storage.clear.pushAll [] roots).2
  have hbudget := budget_pushAll storage.clear [] roots
  have hle := (storage.clear.pushAll [] roots).1.size_le
  have hzero : storage.clear.size = 0 := rfl
  have hturns : count = (storage.reach next roots).size := by
    rw [hzero, List.length_nil] at hbudget
    rw [reach]
    omega
  exact hturns ▸ hends

end StateSet

end LongestMatch
