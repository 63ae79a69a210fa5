import LongestMatch.Group.Marker
import Mathlib.Data.List.Nodup

/-!
# What markers say

A marker gives a state up to three roles for a group. Lists of markers and the markers of a state
are put together in several ways; what they say (`Marker.Says`, `Marks.Has`) is the union of what
went in, whatever the order, and the groups of a list stay in order.

* `Marker.says_insertAll`, `Marker.Ordered.insertAll` — adding markers to a list.
* `Marks.has_add`, `Marks.has_bind`, `Marks.has_shiftUnbound_none`, `Marks.has_addBound` — what the
  operations make of the markers of a state.
* `Marks.says_markers?` — looking up an owner finds all that belongs to it, if no owner has two
  entries.
-/

namespace LongestMatch

/-- What a state is for a group. -/
inductive Role where
  /-- A path enters the group here. -/
  | start
  /-- A path is inside the group. -/
  | inner
  /-- A path may leave the group here. -/
  | stop
deriving DecidableEq

namespace Marker

variable {m other : Marker} {ms ns : List Marker} {group offset : Nat} {role : Role}

/-- Whether a marker gives a role. -/
def has (m : Marker) : Role → Bool
  | .start => m.start
  | .inner => m.inner
  | .stop => m.stop

/-- Some marker of a list gives a role for a group. -/
def Says (ms : List Marker) (group : Nat) (role : Role) : Prop :=
  ∃ m ∈ ms, m.group = group ∧ m.has role = true

instance (ms : List Marker) (group : Nat) (role : Role) : Decidable (Says ms group role) :=
  inferInstanceAs (Decidable (∃ m ∈ ms, m.group = group ∧ m.has role = true))

/-- The groups of a list are in ascending order, each one met once. -/
def Ordered (ms : List Marker) : Prop :=
  ms.Pairwise fun m n => m.group < n.group

/-- The group begins here, or it has begun. -/
def Proper (m : Marker) : Prop :=
  m.start = true ∨ m.inner = true

theorem has_unite (role : Role) : (m.unite other).has role = (m.has role || other.has role) := by
  cases role <;> rfl

theorem proper_unite (h : m.Proper) : (m.unite other).Proper := by
  rw [Proper, unite, Bool.or_eq_true, Bool.or_eq_true]
  exact h.imp Or.inl Or.inl

theorem proper_starting (group : Nat) : (starting group).Proper :=
  .inl rfl

theorem proper_within (group : Nat) : (within group).Proper :=
  .inr rfl

theorem proper_stopping (group : Nat) : (stopping group).Proper :=
  .inr rfl

/-! ## Lists of markers -/

theorem not_says_nil : ¬Says [] group role := by
  intro h
  obtain ⟨m, hm, -⟩ := h
  cases hm

theorem says_cons :
    Says (m :: ms) group role ↔ (m.group = group ∧ m.has role = true) ∨ Says ms group role := by
  simp [Says]

theorem says_insert : Says (insert m ms) group role ↔
    (m.group = group ∧ m.has role = true) ∨ Says ms group role := by
  induction ms with
  | nil => rw [insert, says_cons]
  | cons n ms ih =>
    rw [insert]
    split
    · rw [says_cons, ih, says_cons]
      exact or_left_comm
    · split
      · next heq =>
        have hgroup : (n.unite m).group = n.group := rfl
        rw [says_cons, says_cons, has_unite, Bool.or_eq_true, hgroup, ← heq, and_or_left, or_assoc]
        exact or_left_comm
      · rw [says_cons]

theorem says_insertAll :
    Says (insertAll ms ns) group role ↔ Says ns group role ∨ Says ms group role := by
  unfold insertAll
  induction ns generalizing ms with
  | nil => exact (or_iff_right not_says_nil).symm
  | cons n ns ih =>
    rw [List.foldl_cons, ih, says_insert, says_cons]
    exact or_left_comm.trans or_assoc.symm

theorem exists_mem_of_mem_insert {n : Marker} (h : n ∈ insert m ms) :
    n.group = m.group ∨ ∃ k ∈ ms, n.group = k.group := by
  induction ms with
  | nil =>
    obtain rfl := List.mem_singleton.1 h
    exact .inl rfl
  | cons k ms ih =>
    rw [insert] at h
    split at h
    · rcases List.mem_cons.1 h with rfl | h
      · exact .inr ⟨n, List.mem_cons_self, rfl⟩
      · exact (ih h).imp id fun ⟨j, hj, heq⟩ => ⟨j, List.mem_cons_of_mem _ hj, heq⟩
    · split at h
      · rcases List.mem_cons.1 h with rfl | h
        · exact .inr ⟨k, List.mem_cons_self, rfl⟩
        · exact .inr ⟨n, List.mem_cons_of_mem _ h, rfl⟩
      · rcases List.mem_cons.1 h with rfl | h
        · exact .inl rfl
        · exact .inr ⟨n, h, rfl⟩

theorem Ordered.insert (h : Ordered ms) (m : Marker) : Ordered (insert m ms) := by
  induction ms with
  | nil => exact List.pairwise_singleton _ m
  | cons n ms ih =>
    obtain ⟨hn, hms⟩ := List.pairwise_cons.1 h
    rw [Marker.insert]
    split
    · next hlt =>
      refine List.pairwise_cons.2 ⟨fun k hk => ?_, ih hms⟩
      rcases exists_mem_of_mem_insert hk with heq | ⟨j, hj, heq⟩
      · rwa [heq]
      · exact heq ▸ hn j hj
    · split
      · exact List.pairwise_cons.2 ⟨hn, hms⟩
      · refine List.pairwise_cons.2 ⟨fun k hk => ?_, h⟩
        rcases List.mem_cons.1 hk with rfl | hk
        · omega
        · have := hn k hk
          omega

theorem Ordered.insertAll (h : Ordered ms) (ns : List Marker) : Ordered (insertAll ms ns) := by
  unfold Marker.insertAll
  induction ns generalizing ms with
  | nil => exact h
  | cons n ns ih => exact ih (h.insert n)

theorem proper_insert (hm : m.Proper) (h : ∀ n ∈ ms, n.Proper) : ∀ n ∈ insert m ms, n.Proper := by
  induction ms with
  | nil => exact List.forall_mem_singleton.2 hm
  | cons k ms ih =>
    obtain ⟨hk, hms⟩ := List.forall_mem_cons.1 h
    rw [insert]
    split
    · exact List.forall_mem_cons.2 ⟨hk, ih hms⟩
    · split
      · exact List.forall_mem_cons.2 ⟨proper_unite hk, hms⟩
      · exact List.forall_mem_cons.2 ⟨hm, h⟩

theorem proper_insertAll (h : ∀ n ∈ ms, n.Proper) (hns : ∀ n ∈ ns, n.Proper) :
    ∀ n ∈ insertAll ms ns, n.Proper := by
  unfold insertAll
  induction ns generalizing ms with
  | nil => exact h
  | cons n ns ih =>
    obtain ⟨hn, hns⟩ := List.forall_mem_cons.1 hns
    exact ih (proper_insert hn h) hns

theorem says_map_shift : Says (ms.map (shift offset)) group role ↔
    ∃ earlier, Says ms earlier role ∧ group = (earlier + offset) % groupNumbers := by
  have hhas : ∀ m : Marker, (m.shift offset).has role = m.has role := fun m => by
    cases role <;> rfl
  simp only [Says, List.mem_map]
  constructor
  · intro h
    obtain ⟨_, ⟨m, hm, rfl⟩, rfl, hrole⟩ := h
    exact ⟨m.group, ⟨m, hm, rfl, by rwa [← hhas]⟩, rfl⟩
  · intro h
    obtain ⟨_, ⟨m, hm, rfl, hrole⟩, rfl⟩ := h
    exact ⟨m.shift offset, ⟨m, hm, rfl⟩, rfl, by rwa [hhas]⟩

end Marker

/-! ## The markers of a state -/

namespace Marks

open Marker (Says Ordered)

variable {marks other : Marks} {owner : Option ActionId} {a : ActionId} {ms : List Marker}
  {group offset : Nat} {role : Role}

/-- Under an owner some marker gives a role for a group. -/
def Has (marks : Marks) (owner : Option ActionId) (group : Nat) (role : Role) : Prop :=
  ∃ e ∈ marks.entries, e.owner = owner ∧ Says e.markers group role

instance (marks : Marks) (owner : Option ActionId) (group : Nat) (role : Role) :
    Decidable (marks.Has owner group role) :=
  inferInstanceAs (Decidable (∃ e ∈ marks.entries, e.owner = owner ∧ Says e.markers group role))

/-- No owner has two entries, and every marker is proper. -/
structure Sound (marks : Marks) : Prop where
  nodup : (marks.entries.map MarksOf.owner).Nodup
  proper : ∀ e ∈ marks.entries, ∀ m ∈ e.markers, m.Proper

/-- The markers of each owner are in order. -/
def InOrder (marks : Marks) : Prop :=
  ∀ e ∈ marks.entries, Ordered e.markers

theorem sound_empty : Sound {} :=
  ⟨List.nodup_nil, fun _ h => by cases h⟩

theorem inOrder_empty : InOrder {} :=
  fun _ h => by cases h

theorem not_has_empty : ¬Has {} owner group role := by
  intro h
  obtain ⟨e, he, -⟩ := h
  cases he

/-- Looking up an owner finds its only entry. -/
theorem markers?_eq_some (h : marks.Sound) :
    marks.markers? owner = some ms ↔ ⟨owner, ms⟩ ∈ marks.entries := by
  obtain ⟨entries⟩ := marks
  have hnodup : (entries.map MarksOf.owner).Nodup := h.nodup
  clear h
  rw [markers?, Option.map_eq_some_iff]
  constructor
  · intro h
    obtain ⟨e, he, rfl⟩ := h
    have howner : e.owner = owner := by simpa using List.find?_some he
    rw [← howner]
    exact List.mem_of_find?_eq_some he
  · intro h
    induction entries with
    | nil => cases h
    | cons e entries ih =>
      obtain ⟨hnot, hrest⟩ := List.nodup_cons.1 hnodup
      rcases List.mem_cons.1 h with rfl | h
      · exact ⟨_, List.find?_cons_of_pos (by simp), rfl⟩
      · have hne : e.owner ≠ owner := by
          intro heq
          exact hnot (List.mem_map.2 ⟨_, h, heq.symm⟩)
        rw [List.find?_cons_of_neg (by simpa using hne)]
        exact ih hrest h

theorem says_markers? (h : marks.Sound) :
    Says ((marks.markers? owner).getD []) group role ↔ marks.Has owner group role := by
  constructor
  · intro hsays
    cases hfound : marks.markers? owner with
    | none =>
      rw [hfound] at hsays
      exact absurd hsays Marker.not_says_nil
    | some ms =>
      rw [hfound] at hsays
      exact ⟨_, (markers?_eq_some h).1 hfound, rfl, hsays⟩
  · intro hhas
    obtain ⟨⟨_, ms⟩, he, rfl, hsays⟩ := hhas
    rwa [(markers?_eq_some h).2 he]

/-- The markers of an owner are none, or those of an entry. -/
theorem getD_markers?_cases (marks : Marks) (owner : Option ActionId) :
    (marks.markers? owner).getD [] = [] ∨
      ∃ e ∈ marks.entries, (marks.markers? owner).getD [] = e.markers := by
  cases hfound : marks.markers? owner with
  | none => exact .inl rfl
  | some ms =>
    obtain ⟨e, he, rfl⟩ := Option.map_eq_some_iff.1 hfound
    exact .inr ⟨e, List.mem_of_find?_eq_some he, rfl⟩

/-! ## Adding markers -/

/-- Where markers are added: an entry is one that was there, or the owner's, with the markers put
into what it had. -/
theorem mem_addTo {es : List MarksOf} {e : MarksOf} (h : e ∈ addTo owner ms es) :
    e ∈ es ∨ e.owner = owner ∧ (e.markers = Marker.insertAll [] ms ∨
      ∃ old ∈ es, e.markers = Marker.insertAll old.markers ms) := by
  induction es with
  | nil =>
    obtain rfl := List.mem_singleton.1 h
    exact .inr ⟨rfl, .inl rfl⟩
  | cons f es ih =>
    rw [addTo] at h
    split at h
    · next heq =>
      rcases List.mem_cons.1 h with rfl | h
      · exact .inr ⟨heq, .inr ⟨f, List.mem_cons_self, rfl⟩⟩
      · exact .inl (List.mem_cons_of_mem _ h)
    · rcases List.mem_cons.1 h with rfl | h
      · exact .inl List.mem_cons_self
      · rcases ih h with h | ⟨howner, hms | ⟨old, hold, hms⟩⟩
        · exact .inl (List.mem_cons_of_mem _ h)
        · exact .inr ⟨howner, .inl hms⟩
        · exact .inr ⟨howner, .inr ⟨old, List.mem_cons_of_mem _ hold, hms⟩⟩

theorem nodup_addTo {es : List MarksOf} (h : (es.map MarksOf.owner).Nodup) :
    ((addTo owner ms es).map MarksOf.owner).Nodup := by
  induction es with
  | nil => exact List.nodup_singleton _
  | cons e es ih =>
    obtain ⟨hnot, hrest⟩ := List.nodup_cons.1 h
    rw [addTo]
    split
    · exact List.nodup_cons.2 ⟨hnot, hrest⟩
    · next hne =>
      refine List.nodup_cons.2 ⟨fun hmem => ?_, ih hrest⟩
      obtain ⟨f, hf, heq⟩ := List.mem_map.1 hmem
      rcases mem_addTo hf with hf | ⟨howner, -⟩
      · exact hnot (List.mem_map.2 ⟨f, hf, heq⟩)
      · exact hne (heq.symm.trans howner)

theorem Sound.add (h : marks.Sound) (owner : Option ActionId) (hms : ∀ m ∈ ms, m.Proper) :
    (marks.add owner ms).Sound := by
  refine ⟨nodup_addTo h.nodup, fun e he => ?_⟩
  rcases mem_addTo he with he | ⟨-, heq | ⟨old, hold, heq⟩⟩
  · exact h.proper e he
  · rw [heq]
    exact Marker.proper_insertAll (fun _ hm => by cases hm) hms
  · rw [heq]
    exact Marker.proper_insertAll (h.proper old hold) hms

theorem InOrder.add (h : marks.InOrder) (owner : Option ActionId) (ms : List Marker) :
    (marks.add owner ms).InOrder := by
  intro e he
  rcases mem_addTo he with he | ⟨-, heq | ⟨old, hold, heq⟩⟩
  · exact h e he
  · rw [heq]
    exact Ordered.insertAll List.Pairwise.nil ms
  · rw [heq]
    exact (h old hold).insertAll ms

theorem has_cons {e : MarksOf} {es : List MarksOf} : Has ⟨e :: es⟩ owner group role ↔
    (e.owner = owner ∧ Says e.markers group role) ∨ Has ⟨es⟩ owner group role := by
  simp [Has]

theorem has_add {target : Option ActionId} : (marks.add target ms).Has owner group role ↔
    (target = owner ∧ Says ms group role) ∨ marks.Has owner group role := by
  obtain ⟨entries⟩ := marks
  show Has ⟨addTo target ms entries⟩ owner group role ↔ _
  induction entries with
  | nil => rw [addTo, has_cons, Marker.says_insertAll, or_iff_left Marker.not_says_nil]
  | cons e entries ih =>
    rw [addTo]
    split
    · next heq =>
      rw [has_cons, has_cons, Marker.says_insertAll, and_or_left, or_assoc, heq]
    · rw [has_cons, has_cons, ih]
      exact or_left_comm

/-- The bound markers of another state are added to those that there are. -/
theorem has_addBound : (marks.addBound other).Has (some a) group role ↔
    other.Has (some a) group role ∨ marks.Has (some a) group role := by
  obtain ⟨entries⟩ := other
  unfold addBound
  induction entries generalizing marks with
  | nil => exact (or_iff_right not_has_empty).symm
  | cons e entries ih =>
    rw [List.foldl_cons, ih, has_cons]
    split
    · next hnone =>
      have hskip : ¬(e.owner = some a ∧ Says e.markers group role) := by
        intro h
        rw [hnone] at h
        cases h.1
      rw [or_iff_right hskip]
    · rw [has_add, or_left_comm, or_assoc]

theorem addBound_invariant {P : Marks → Prop} (h : P marks)
    (hadd : ∀ marks, P marks → ∀ e ∈ other.entries, P (marks.add e.owner e.markers)) :
    P (marks.addBound other) := by
  obtain ⟨entries⟩ := other
  unfold addBound
  induction entries generalizing marks with
  | nil => exact h
  | cons e entries ih =>
    rw [List.foldl_cons]
    refine ih ?_ fun marks hmarks f hf => hadd marks hmarks f (List.mem_cons_of_mem _ hf)
    split
    · exact h
    · exact hadd marks h e List.mem_cons_self

theorem Sound.addBound (h : marks.Sound) (ho : other.Sound) : (marks.addBound other).Sound :=
  addBound_invariant h fun _ hmarks e he => hmarks.add e.owner (ho.proper e he)

theorem InOrder.addBound (h : marks.InOrder) (other : Marks) : (marks.addBound other).InOrder :=
  addBound_invariant h fun _ hmarks e _ => hmarks.add e.owner e.markers

/-! ## Groups that come after others -/

theorem Sound.shiftUnbound (h : marks.Sound) (offset : Nat) : (marks.shiftUnbound offset).Sound := by
  constructor
  · have howner : (marks.shiftUnbound offset).entries.map MarksOf.owner =
        marks.entries.map MarksOf.owner := by
      rw [Marks.shiftUnbound, List.map_map]
      refine List.map_congr_left fun e _ => ?_
      show MarksOf.owner (if _ then _ else _) = _
      split <;> rfl
    rw [howner]
    exact h.nodup
  · intro e he m hm
    obtain ⟨f, hf, rfl⟩ := List.mem_map.1 he
    split at hm
    · obtain ⟨n, hn, rfl⟩ := List.mem_map.1 hm
      exact h.proper f hf n hn
    · exact h.proper f hf m hm

theorem has_shiftUnbound_none : (marks.shiftUnbound offset).Has none group role ↔
    ∃ earlier, marks.Has none earlier role ∧ group = (earlier + offset) % groupNumbers := by
  simp only [Has, Marks.shiftUnbound, List.mem_map]
  constructor
  · intro h
    obtain ⟨_, ⟨e, he, rfl⟩, howner, hsays⟩ := h
    split at howner
    · next hnone =>
      rw [if_pos hnone] at hsays
      obtain ⟨earlier, hsays, heq⟩ := Marker.says_map_shift.1 hsays
      exact ⟨earlier, ⟨e, he, hnone, hsays⟩, heq⟩
    · next hne => exact absurd howner hne
  · intro h
    obtain ⟨earlier, ⟨e, he, hnone, hsays⟩, heq⟩ := h
    refine ⟨_, ⟨e, he, rfl⟩, ?_⟩
    rw [if_pos hnone]
    exact ⟨hnone, Marker.says_map_shift.2 ⟨earlier, hsays, heq⟩⟩

/-- If the numbers do not get too large, none wraps round. -/
theorem has_shiftUnbound_of_lt {count : Nat}
    (h : ∀ group role, marks.Has none group role → group < count) (hle : offset + count ≤ groupNumbers) :
    (marks.shiftUnbound offset).Has none group role ↔
      offset ≤ group ∧ marks.Has none (group - offset) role := by
  have hmod : ∀ earlier, marks.Has none earlier role →
      (earlier + offset) % groupNumbers = earlier + offset := by
    intro earlier hhas
    have hlt := h earlier role hhas
    exact Nat.mod_eq_of_lt (by omega)
  rw [has_shiftUnbound_none]
  constructor
  · intro h
    obtain ⟨earlier, hhas, rfl⟩ := h
    rw [hmod earlier hhas, Nat.add_sub_cancel]
    exact ⟨Nat.le_add_left _ _, hhas⟩
  · intro h
    obtain ⟨hoffset, hhas⟩ := h
    refine ⟨group - offset, hhas, ?_⟩
    rw [hmod _ hhas, Nat.sub_add_cancel hoffset]

theorem has_shiftUnbound_some :
    (marks.shiftUnbound offset).Has (some a) group role ↔ marks.Has (some a) group role := by
  simp only [Has, Marks.shiftUnbound, List.mem_map]
  constructor
  · intro h
    obtain ⟨_, ⟨e, he, rfl⟩, howner, hsays⟩ := h
    split at howner
    · next hnone => exact absurd (howner.symm.trans hnone) (Option.some_ne_none a)
    · next hne =>
      rw [if_neg hne] at hsays
      exact ⟨e, he, howner, hsays⟩
  · intro h
    obtain ⟨e, he, howner, hsays⟩ := h
    have hne : ¬e.owner = none := by
      rw [howner]
      exact Option.some_ne_none a
    exact ⟨_, ⟨e, he, rfl⟩, by rw [if_neg hne]; exact ⟨howner, hsays⟩⟩

/-! ## Binding -/

/-- The unbound markers go over to the action. -/
theorem has_bind {b : ActionId} (h : marks.Sound) : (marks.bind a).Has (some b) group role ↔
    (a = b ∧ marks.Has none group role) ∨ marks.Has (some b) group role := by
  unfold bind
  split
  · next hfound =>
    refine (or_iff_right fun hhas => ?_).symm
    have hsays := (says_markers? h).2 hhas.2
    rw [hfound] at hsays
    exact Marker.not_says_nil hsays
  · next unbound hfound =>
    rw [has_add, Option.some.injEq]
    refine or_congr (and_congr_right fun _ => ?_) ?_
    · rw [← says_markers? h, hfound, Option.getD_some]
    · refine exists_congr fun e => and_congr_left fun he => ?_
      rw [List.mem_eraseP_of_neg]
      rw [he.1]
      exact of_decide_eq_false rfl

theorem Sound.bind (h : marks.Sound) (a : ActionId) : (marks.bind a).Sound := by
  unfold Marks.bind
  split
  · exact h
  · next unbound hfound =>
    have hrest : Sound ⟨marks.entries.eraseP fun e => e.owner = none⟩ :=
      ⟨h.nodup.sublist (List.eraseP_sublist.map _), fun e he => h.proper e (List.mem_of_mem_eraseP he)⟩
    exact hrest.add _ (h.proper _ ((markers?_eq_some h).1 hfound))

end Marks

end LongestMatch
