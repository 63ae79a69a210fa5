import LongestMatch.StateSet
import Mathlib.Data.Finset.Card
import Mathlib.Data.Finset.Range
import Mathlib.Logic.Relation

/-!
# What closing a set under successors collects

A `StateSet` is read through two views: membership (`contains`) and the list of its members in the
order of insertion (`toList`). They agree on *coherent* sets, those whose two arrays point at each
other; the empty set is coherent, and clearing and inserting keep it so, whatever the arrays hold
beyond the size.

* `contains_insert`, `toList_insert`, `insert_new_iff` — one insertion, through both views.
* `getElem?_toList` — the rank of a member is its position in the list.
* `contains_reach` — `reach` collects exactly the numbers that a path of successors leads to from a
  root. The storage it works in does not matter.
* `mem_turnAround` — a table of predecessors, filled edge by edge, holds the edges turned around.
-/

namespace LongestMatch

namespace StateSet

variable {n : Nat}

/-! ## Coherent sets -/

/-- The members lie where the set looks for them. -/
def Coherent (s : StateSet n) : Prop :=
  ∀ i < s.size, ∃ id, s.dense[i]? = some id ∧ s.sparse[id]? = some i

theorem coherent_of_size_zero {s : StateSet n} (h : s.size = 0) : s.Coherent := by
  intro i hi
  omega

theorem coherent_clear (s : StateSet n) : s.clear.Coherent :=
  coherent_of_size_zero rfl

/-- A number has a rank if it lies where the set looks for it. -/
theorem rank?_eq_some_iff {s : StateSet n} {id i : Nat} :
    s.rank? id = some i ↔ i < s.size ∧ s.dense[i]? = some id ∧ s.sparse[id]? = some i := by
  unfold rank?
  constructor
  · intro h
    split at h
    · next hid =>
      simp only at h
      split at h
      · next hlt =>
        split at h
        · next heq =>
          cases h
          have hn : s.sparse[id] < n := Nat.lt_of_lt_of_le hlt s.size_le
          have hdense : s.dense[s.sparse[id]]? = some id := by
            rw [Vector.getElem?_eq_getElem hn, heq]
          exact ⟨hlt, hdense, Vector.getElem?_eq_getElem hid⟩
        · cases h
      · cases h
    · cases h
  · intro h
    obtain ⟨hi, hdense, hsparse⟩ := h
    obtain ⟨hid, rfl⟩ := Vector.getElem?_eq_some_iff.1 hsparse
    obtain ⟨_, heq⟩ := Vector.getElem?_eq_some_iff.1 hdense
    rw [dif_pos hid]
    simp only
    rw [dif_pos hi, if_pos heq]

theorem contains_iff {s : StateSet n} {id : Nat} :
    s.contains id = true ↔ ∃ i, s.rank? id = some i := by
  rw [contains, Option.isSome_iff_exists]

theorem lt_of_contains {s : StateSet n} {id : Nat} (h : s.contains id = true) : id < n := by
  obtain ⟨i, hi⟩ := contains_iff.1 h
  obtain ⟨hlt, -, hs⟩ := rank?_eq_some_iff.1 hi
  exact (Vector.getElem?_eq_some_iff.1 hs).1

theorem getElem?_toList_eq (s : StateSet n) (i : Nat) :
    s.toList[i]? = if i < s.size then s.dense[i]? else none := by
  rw [toList, List.getElem?_take]
  simp

/-- The rank of a member is its position in the list. -/
theorem getElem?_toList {s : StateSet n} (hs : s.Coherent) {id i : Nat} :
    s.toList[i]? = some id ↔ s.rank? id = some i := by
  rw [getElem?_toList_eq, rank?_eq_some_iff]
  constructor
  · intro h
    split at h
    · next hi =>
      obtain ⟨id', hd, hsp⟩ := hs i hi
      rw [h] at hd
      cases hd
      exact ⟨hi, h, hsp⟩
    · cases h
  · intro h'
    obtain ⟨hi, hd, -⟩ := h'
    rw [if_pos hi, hd]

theorem mem_toList {s : StateSet n} (hs : s.Coherent) {id : Nat} :
    id ∈ s.toList ↔ s.contains id = true := by
  rw [List.mem_iff_getElem?, contains_iff]
  exact exists_congr fun i => getElem?_toList hs

theorem length_toList (s : StateSet n) : s.toList.length = s.size := by
  simp [toList, s.size_le]

theorem nodup_toList {s : StateSet n} (hs : s.Coherent) : s.toList.Nodup := by
  rw [List.nodup_iff_getElem?_ne_getElem?]
  intro i j hij hj heq
  have hi : i < s.toList.length := by omega
  obtain ⟨id, hid⟩ : ∃ id, s.toList[i]? = some id := ⟨_, List.getElem?_eq_getElem hi⟩
  have hri := (getElem?_toList hs).1 hid
  have hrj := (getElem?_toList hs).1 (heq ▸ hid)
  rw [hri] at hrj
  cases hrj
  omega

/-- As long as a number is missing there is room for it. -/
theorem size_lt_of_not_contains {s : StateSet n} (hs : s.Coherent) {id : Nat} (hid : id < n)
    (h : s.contains id = false) : s.size < n := by
  have hsub : Insert.insert id s.toList.toFinset ⊆ Finset.range n := by
    intro x hx
    rw [Finset.mem_insert, List.mem_toFinset, mem_toList hs] at hx
    rcases hx with rfl | hx
    · exact Finset.mem_range.2 hid
    · exact Finset.mem_range.2 (lt_of_contains hx)
  have hnew : id ∉ s.toList.toFinset := by
    rw [List.mem_toFinset, mem_toList hs, h]
    simp
  have hcard := Finset.card_le_card hsub
  rw [Finset.card_insert_of_notMem hnew, List.toFinset_card_of_nodup (nodup_toList hs),
    length_toList, Finset.card_range] at hcard
  exact hcard

/-! ## Insertion -/

/-- What an insertion comes to, case by case. -/
theorem insert_cases {s : StateSet n} (hs : s.Coherent) (id : Nat) :
    (s.contains id = true ∨ n ≤ id) ∧ s.insert id = (s, false) ∨
      s.contains id = false ∧ ∃ (hid : id < n) (hroom : s.size < n),
        s.insert id =
          (⟨s.dense.set s.size id hroom, s.sparse.set id s.size hid, s.size + 1, hroom⟩, true) := by
  unfold insert
  by_cases hc : s.contains id = true
  · exact Or.inl ⟨Or.inl hc, if_pos hc⟩
  · rw [if_neg hc]
    by_cases hid : id < n
    · have hroom := size_lt_of_not_contains hs hid (by simpa using hc)
      exact Or.inr ⟨by simpa using hc, hid, hroom, dif_pos ⟨hid, hroom⟩⟩
    · refine Or.inl ⟨Or.inr (by omega), dif_neg ?_⟩
      exact fun h => hid h.1

theorem coherent_insert {s : StateSet n} (hs : s.Coherent) (id : Nat) :
    (s.insert id).1.Coherent := by
  rcases insert_cases hs id with ⟨-, h⟩ | ⟨hc, hid, hroom, h⟩
  · rw [h]
    exact hs
  · rw [h]
    intro i hi
    simp only at hi ⊢
    by_cases hlast : i = s.size
    · subst hlast
      exact ⟨id, by simp [hroom], by simp [hid]⟩
    · obtain ⟨old, hd, hsp⟩ := hs i (by omega)
      have hne : id ≠ old := by
        intro heq
        obtain rfl := heq
        have : s.contains id = true :=
          contains_iff.2 ⟨i, rank?_eq_some_iff.2 ⟨by omega, hd, hsp⟩⟩
        rw [hc] at this
        cases this
      refine ⟨old, ?_, ?_⟩
      · rw [Vector.getElem?_set_ne hroom (Ne.symm hlast), hd]
      · rw [Vector.getElem?_set_ne hid hne, hsp]

/-- Insertion tells whether the number was missing. -/
theorem insert_new_iff {s : StateSet n} (hs : s.Coherent) (id : Nat) :
    (s.insert id).2 = true ↔ id < n ∧ s.contains id = false := by
  rcases insert_cases hs id with ⟨hc, h⟩ | ⟨hc, hid, hroom, h⟩
  · rw [h]
    simp only [Bool.false_eq_true, false_iff, not_and, Bool.not_eq_false]
    intro hid
    rcases hc with hc | hc
    · exact hc
    · omega
  · rw [h]
    exact iff_of_true rfl ⟨hid, hc⟩

/-- A new number comes after those that are there. -/
theorem toList_insert {s : StateSet n} (hs : s.Coherent) (id : Nat) :
    (s.insert id).1.toList = if (s.insert id).2 then s.toList ++ [id] else s.toList := by
  rcases insert_cases hs id with ⟨-, h⟩ | ⟨hc, hid, hroom, h⟩
  · rw [h]
    rfl
  · rw [h, if_pos rfl]
    apply List.ext_getElem?
    intro i
    rw [getElem?_toList_eq, List.getElem?_append, getElem?_toList_eq, length_toList]
    simp only
    by_cases hlt : i < s.size
    · rw [if_pos (by omega), if_pos hlt, if_pos hlt, Vector.getElem?_set_ne hroom (by omega)]
    · rw [if_neg hlt]
      by_cases heq : i = s.size
      · subst heq
        simp [hroom]
      · rw [if_neg (by omega), List.getElem?_eq_none (by simp; omega)]

theorem contains_insert {s : StateSet n} (hs : s.Coherent) (id x : Nat) :
    (s.insert id).1.contains x = true ↔ s.contains x = true ∨ x = id ∧ x < n := by
  rw [← mem_toList (coherent_insert hs id), toList_insert hs, ← mem_toList hs]
  have hnew := insert_new_iff hs id
  split
  · next h =>
    rw [List.mem_append, List.mem_singleton]
    have hlt := (hnew.1 h).1
    constructor
    · intro h'
      rcases h' with hx | rfl
      · exact Or.inl hx
      · exact Or.inr ⟨rfl, hlt⟩
    · intro h'
      rcases h' with hx | ⟨rfl, -⟩
      · exact Or.inl hx
      · exact Or.inr rfl
  · next h =>
    constructor
    · exact Or.inl
    · intro h'
      rcases h' with hx | ⟨rfl, hlt⟩
      · exact hx
      · by_contra hx
        rw [mem_toList hs] at hx
        exact h (hnew.2 ⟨hlt, by simpa using hx⟩)

/-! ## Pushing and saturating -/

theorem coherent_pushAll {seen : StateSet n} (hs : seen.Coherent) (stack ids : List Nat) :
    (seen.pushAll stack ids).1.Coherent := by
  induction ids generalizing seen stack with
  | nil => exact hs
  | cons id ids ih =>
    have hc := coherent_insert hs id
    rw [pushAll]
    split
    · next h => exact ih (by rwa [h] at hc) _
    · next h => exact ih (by rwa [h] at hc) _

theorem contains_pushAll {seen : StateSet n} (hs : seen.Coherent) (stack ids : List Nat)
    {x : Nat} :
    (seen.pushAll stack ids).1.contains x = true ↔
      seen.contains x = true ∨ x ∈ ids ∧ x < n := by
  induction ids generalizing seen stack with
  | nil => simp [pushAll]
  | cons id ids ih =>
    have hc := coherent_insert hs id
    have hx := contains_insert hs id x
    rw [pushAll]
    split
    · next h =>
      rw [h] at hc hx
      rw [ih hc, hx, List.mem_cons]
      tauto
    · next h =>
      rw [h] at hc hx
      rw [ih hc, hx, List.mem_cons]
      tauto

theorem mem_pushAll {seen : StateSet n} (hs : seen.Coherent) (stack ids : List Nat) {x : Nat} :
    x ∈ (seen.pushAll stack ids).2 ↔
      x ∈ stack ∨ x ∈ ids ∧ x < n ∧ seen.contains x = false := by
  induction ids generalizing seen stack with
  | nil => simp [pushAll]
  | cons id ids ih =>
    have hc := coherent_insert hs id
    have hx := contains_insert hs id x
    have hnew := insert_new_iff hs id
    rw [pushAll]
    split
    · next seen' h =>
      rw [h] at hc hx hnew
      obtain ⟨hlt, hmiss⟩ := hnew.1 rfl
      rw [ih hc, List.mem_cons, List.mem_cons, ← Bool.not_eq_true, hx, ← Bool.not_eq_true]
      by_cases heq : x = id
      · subst heq
        simp [hlt, hmiss]
      · simp [heq]
    · next seen' h =>
      rw [h] at hc hx hnew
      rw [ih hc, List.mem_cons, ← Bool.not_eq_true, hx, ← Bool.not_eq_true]
      by_cases heq : x = id
      · subst heq
        have hold : ¬(x < n ∧ seen.contains x = false) := fun h' => by simpa using hnew.2 h'
        rw [← Bool.not_eq_true] at hold
        tauto
      · simp [heq]

/-- A successor that can be a member. -/
def Link (n : Nat) (next : Nat → List Nat) (a b : Nat) : Prop :=
  b ∈ next a ∧ b < n

/-- What the work list keeps true: all that was met and is not waiting has been expanded. -/
structure Expanded (next : Nat → List Nat) (seen : StateSet n) (stack : List Nat) : Prop where
  coherent : seen.Coherent
  waiting : ∀ a ∈ stack, seen.contains a = true
  done : ∀ a, seen.contains a = true → a ∉ stack → ∀ b, Link n next a b → seen.contains b = true

theorem Expanded.step {next : Nat → List Nat} {seen : StateSet n} {id : Nat} {rest : List Nat}
    (h : Expanded next seen (id :: rest)) :
    Expanded next (seen.pushAll rest (next id)).1 (seen.pushAll rest (next id)).2 where
  coherent := coherent_pushAll h.coherent _ _
  waiting a ha := by
    rw [contains_pushAll h.coherent]
    rcases (mem_pushAll h.coherent _ _).1 ha with hr | ⟨hn, hlt, -⟩
    · exact Or.inl (h.waiting a (List.mem_cons_of_mem _ hr))
    · exact Or.inr ⟨hn, hlt⟩
  done a ha hstack b hab := by
    rw [contains_pushAll h.coherent] at ha ⊢
    rw [mem_pushAll h.coherent] at hstack
    by_cases hid : a = id
    · exact Or.inr (hid ▸ hab)
    · have hseen : seen.contains a = true := by
        rcases ha with ha | ⟨hn, hlt⟩
        · exact ha
        · by_contra hmiss
          exact hstack (Or.inr ⟨hn, hlt, by simpa using hmiss⟩)
      refine Or.inl (h.done a hseen ?_ b hab)
      rw [List.mem_cons]
      tauto

/-- Whatever has been met is either expanded or waits, so a path never gets out of sight. -/
theorem Expanded.covers {next : Nat → List Nat} {seen : StateSet n} {stack : List Nat}
    (h : Expanded next seen stack) {a x : Nat} (ha : seen.contains a = true)
    (hax : Relation.ReflTransGen (Link n next) a x) :
    seen.contains x = true ∨ ∃ b ∈ stack, Relation.ReflTransGen (Link n next) b x := by
  induction hax with
  | refl => exact Or.inl ha
  | @tail c d _ hcd ih =>
    rcases ih with hc | ⟨b, hb, hbc⟩
    · by_cases hw : c ∈ stack
      · exact Or.inr ⟨c, hw, Relation.ReflTransGen.single hcd⟩
      · exact Or.inl (h.done c hc hw d hcd)
    · exact Or.inr ⟨b, hb, hbc.tail hcd⟩

/-- Saturation adds exactly what links lead to from the numbers that wait. -/
theorem contains_saturate {next : Nat → List Nat} {seen : StateSet n} {stack : List Nat}
    (h : Expanded next seen stack) {x : Nat} :
    (seen.saturate next stack).contains x = true ↔
      seen.contains x = true ∨ ∃ a ∈ stack, Relation.ReflTransGen (Link n next) a x := by
  fun_induction saturate next seen stack with
  | case1 seen => simp
  | case2 seen id rest work ih =>
    rw [ih h.step, contains_pushAll h.coherent]
    constructor
    · intro h'
      rcases h' with (hx | ⟨hx, hlt⟩) | ⟨a, ha, hax⟩
      · exact Or.inl hx
      · exact Or.inr ⟨id, List.mem_cons_self .., Relation.ReflTransGen.single ⟨hx, hlt⟩⟩
      · rcases (mem_pushAll h.coherent _ _).1 ha with hr | ⟨hn, hlt, -⟩
        · exact Or.inr ⟨a, List.mem_cons_of_mem _ hr, hax⟩
        · exact Or.inr ⟨id, List.mem_cons_self .., Relation.ReflTransGen.head ⟨hn, hlt⟩ hax⟩
    · intro h'
      rcases h' with hx | ⟨a, ha, hax⟩
      · exact Or.inl (Or.inl hx)
      · have hseen : work.1.contains a = true :=
          (contains_pushAll h.coherent _ _).2 (Or.inl (h.waiting a ha))
        have hcov := h.step.covers hseen hax
        rwa [contains_pushAll h.coherent] at hcov

theorem coherent_saturate {next : Nat → List Nat} {seen : StateSet n} {stack : List Nat}
    (h : seen.Coherent) : (seen.saturate next stack).Coherent := by
  fun_induction saturate next seen stack with
  | case1 seen => exact h
  | case2 seen id rest work ih => exact ih (coherent_pushAll h _ _)

/-! ## Reaching -/

theorem coherent_reach (storage : StateSet n) (next : Nat → List Nat) (roots : List Nat) :
    (storage.reach next roots).Coherent :=
  coherent_saturate (coherent_pushAll (coherent_clear storage) _ _)

theorem not_contains_clear (s : StateSet n) (x : Nat) : s.clear.contains x = false := by
  rw [← Bool.not_eq_true, contains_iff]
  intro h
  obtain ⟨i, hi⟩ := h
  have : i < 0 := (rank?_eq_some_iff.1 hi).1
  omega

/-- Reaching collects what links lead to from the roots. -/
theorem contains_reach (storage : StateSet n) (next : Nat → List Nat) (roots : List Nat)
    {x : Nat} :
    (storage.reach next roots).contains x = true ↔
      ∃ r ∈ roots, r < n ∧ Relation.ReflTransGen (Link n next) r x := by
  have hs := coherent_clear storage
  have hexp : Expanded next (storage.clear.pushAll [] roots).1
      (storage.clear.pushAll [] roots).2 := by
    refine ⟨coherent_pushAll hs _ _, fun a ha => ?_, fun a ha hstack => ?_⟩
    · rw [contains_pushAll hs]
      obtain ha | ⟨hr, hlt, -⟩ := (mem_pushAll hs _ _).1 ha
      · cases ha
      · exact Or.inr ⟨hr, hlt⟩
    · exfalso
      rw [contains_pushAll hs, not_contains_clear] at ha
      rw [mem_pushAll hs] at hstack
      obtain ha | ⟨hr, hlt⟩ := ha
      · cases ha
      · exact hstack (Or.inr ⟨hr, hlt, not_contains_clear _ _⟩)
  rw [reach, contains_saturate hexp, contains_pushAll hs, not_contains_clear]
  constructor
  · intro h
    rcases h with (hf | ⟨hr, hlt⟩) | ⟨a, ha, hax⟩
    · cases hf
    · exact ⟨x, hr, hlt, .refl⟩
    · obtain hf | ⟨hr, hlt, -⟩ := (mem_pushAll hs _ _).1 ha
      · cases hf
      · exact ⟨a, hr, hlt, hax⟩
  · intro h
    obtain ⟨r, hr, hlt, hrx⟩ := h
    exact Or.inr ⟨r, (mem_pushAll hs _ _).2 (Or.inr ⟨hr, hlt, not_contains_clear _ _⟩), hrx⟩

end StateSet

/-! ## Edges turned around -/

/-- The table with `id` put in front at each of `targets`. -/
def enterAll (id : Nat) (table : Array (List Nat)) (targets : List Nat) : Array (List Nat) :=
  targets.foldl (fun table next => table.modify next (id :: ·)) table

theorem size_enterAll (id : Nat) (table : Array (List Nat)) (targets : List Nat) :
    (enterAll id table targets).size = table.size := by
  unfold enterAll
  induction targets generalizing table with
  | nil => rfl
  | cons t targets ih => rw [List.foldl_cons, ih, Array.size_modify]

theorem mem_enterAll {id p q : Nat} {table : Array (List Nat)} {targets : List Nat} :
    p ∈ (enterAll id table targets).getD q [] ↔
      p ∈ table.getD q [] ∨ p = id ∧ q ∈ targets ∧ q < table.size := by
  unfold enterAll
  induction targets generalizing table with
  | nil => simp
  | cons t targets ih =>
    rw [List.foldl_cons, ih, Array.size_modify, Array.getD_eq_getD_getElem?,
      Array.getD_eq_getD_getElem?, Array.getElem?_modify]
    by_cases htq : t = q
    · subst htq
      by_cases hlt : t < table.size
      · simp [hlt]
        grind
      · simp [hlt]
    · simp [htq, Ne.symm htq]

theorem mem_foldl_enterAll {n p q : Nat} (targets : Nat → List Nat) (ids : List Nat)
    {table : Array (List Nat)} (hsize : table.size = n) :
    p ∈ (ids.foldl (fun table id => enterAll id table (targets id)) table).getD q [] ↔
      p ∈ table.getD q [] ∨ p ∈ ids ∧ q ∈ targets p ∧ q < n := by
  induction ids generalizing table with
  | nil => simp
  | cons id ids ih =>
    rw [List.foldl_cons, ih (by rw [size_enterAll, hsize]), mem_enterAll, hsize, List.mem_cons]
    grind

/-- The table holds at each number the ids that it is a target of. -/
theorem mem_turnAround {n p q : Nat} (targets : Nat → List Nat) (ids : List Nat) :
    p ∈ (ids.foldl (fun table id => enterAll id table (targets id))
      (Array.replicate n [])).getD q [] ↔ p ∈ ids ∧ q ∈ targets p ∧ q < n := by
  rw [mem_foldl_enterAll targets ids Array.size_replicate, Array.getD_eq_getD_getElem?,
    Array.getElem?_replicate]
  split <;> simp

end LongestMatch
