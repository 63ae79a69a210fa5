import LongestMatch.Group.Span
import LongestMatch.Proofs.Markers

/-!
# One group at a time

At each position the open spans are compared with the markers, as two lists in ascending order of
groups. What becomes of one group depends on its own span and its own marker only
(`Span.ofGroup_step`), so its spans are those of a slot that is taken from position to position
(`Span.ofGroup_ofTrail`).
-/

namespace LongestMatch

/-! ## The slot of a group -/

namespace OpenSpan

variable {s : OpenSpan} {opened : List OpenSpan} {m : Marker} {group position : Nat}

/-- The groups are in ascending order, each one met once. -/
def Ordered (opened : List OpenSpan) : Prop :=
  opened.Pairwise fun s t => s.group < t.group

/-- The open span of a group. -/
def slot (group : Nat) (opened : List OpenSpan) : Option OpenSpan :=
  opened.find? fun s => s.group = group

/-- One position for a single group: what is reported there, and the span that is open after it. -/
def turn (position : Nat) : Option OpenSpan → Option Marker → List Span × Option OpenSpan
  | none, none => ([], none)
  | some s, none => (s.close, none)
  | none, some m => ([], if m.start then some (beginAt m.group position m.stop) else none)
  | some s, some m => ((s.advance m position).1, some (s.advance m position).2)

/-- The spans of a single group, given the markers that it has at each position. -/
def run (open? : Option OpenSpan) : List (Nat × Option Marker) → List Span
  | [] => open?.toList.flatMap close
  | (position, m?) :: rest => (turn position open? m?).1 ++ run (turn position open? m?).2 rest

theorem slot_eq_none (h : ∀ s ∈ opened, group < s.group) : slot group opened = none := by
  rw [slot, List.find?_eq_none]
  intro s hs
  have := h s hs
  simp only [decide_eq_true_eq]
  omega

theorem slot_cons (group : Nat) (s : OpenSpan) (opened : List OpenSpan) :
    slot group (s :: opened) = if s.group = group then some s else slot group opened := by
  rw [slot, slot, List.find?_cons]
  split <;> simp_all

theorem Ordered.slot_tail (h : Ordered (s :: opened)) : slot s.group opened = none :=
  slot_eq_none (List.pairwise_cons.1 h).1

theorem Ordered.slot_of_lt (h : Ordered (s :: opened)) (hlt : group < s.group) :
    slot group (s :: opened) = none := by
  refine slot_eq_none (List.forall_mem_cons.2 ⟨hlt, fun t ht => ?_⟩)
  have := (List.pairwise_cons.1 h).1 t ht
  omega

theorem group_of_mem_close {span : Span} (h : span ∈ s.close) : span.group = s.group := by
  unfold close at h
  split at h
  · obtain rfl := List.mem_singleton.1 h
    rfl
  · cases h

/-- Under a marker inside the group a span comes as far as the position. -/
def grow (s : OpenSpan) (m : Marker) (position : Nat) : OpenSpan :=
  if m.inner then { s with stop := position, complete := s.complete || m.stop } else s

theorem advance_eq (s : OpenSpan) (m : Marker) (position : Nat) : s.advance m position =
    if m.start then ((s.grow m position).close, beginAt m.group position false)
    else ([], s.grow m position) :=
  rfl

theorem grow_of_inner (h : m.inner = true) : s.grow m position =
    { s with stop := position, complete := s.complete || m.stop } :=
  if_pos h

theorem group_grow : (s.grow m position).group = s.group := by
  unfold grow
  split <;> rfl

theorem start_grow : (s.grow m position).start = s.start := by
  unfold grow
  split <;> rfl

theorem group_advance (position : Nat) (hgroup : s.group = m.group) :
    (s.advance m position).2.group = m.group ∧
      ∀ span ∈ (s.advance m position).1, span.group = m.group := by
  have hgrown : (s.grow m position).group = m.group := group_grow.trans hgroup
  rw [advance_eq]
  split
  · exact ⟨rfl, fun span hspan => (group_of_mem_close hspan).trans hgrown⟩
  · exact ⟨hgrown, fun span hspan => by cases hspan⟩

end OpenSpan

namespace Marker

/-- The marker of a group in a list. -/
def find (group : Nat) (ms : List Marker) : Option Marker :=
  ms.find? fun m => m.group = group

variable {m : Marker} {ms : List Marker} {group : Nat} {role : Role}

theorem find_eq_none (h : ∀ m ∈ ms, group < m.group) : find group ms = none := by
  rw [find, List.find?_eq_none]
  intro m hm
  have := h m hm
  simp only [decide_eq_true_eq]
  omega

theorem find_cons (group : Nat) (m : Marker) (ms : List Marker) :
    find group (m :: ms) = if m.group = group then some m else find group ms := by
  rw [find, find, List.find?_cons]
  split <;> simp_all

theorem Ordered.find_tail (h : Ordered (m :: ms)) : find m.group ms = none :=
  find_eq_none (List.pairwise_cons.1 h).1

theorem Ordered.find_of_lt (h : Ordered (m :: ms)) (hlt : group < m.group) :
    find group (m :: ms) = none := by
  refine find_eq_none (List.forall_mem_cons.2 ⟨hlt, fun n hn => ?_⟩)
  have := (List.pairwise_cons.1 h).1 n hn
  omega

/-- In a list in order all that is said of a group is said by its one marker. -/
theorem says_iff_find (h : Ordered ms) :
    Says ms group role ↔ ∃ m, find group ms = some m ∧ m.has role = true := by
  induction ms with
  | nil => exact iff_of_false not_says_nil fun ⟨m, hm, _⟩ => by cases hm
  | cons n ms ih =>
    rw [says_cons, ih (List.pairwise_cons.1 h).2, find_cons]
    split
    · next hgroup =>
      have htail : find group ms = none := hgroup ▸ h.find_tail
      simp [hgroup, htail]
    · next hgroup => simp [hgroup]

/-- In a list in order the marker of a group is the one with its roles. -/
theorem find_eq_some (h : Ordered ms) (hm : m.Proper)
    (hsaid : ∀ role, Says ms m.group role ↔ m.has role = true) : find m.group ms = some m := by
  have hrole : ∃ role, m.has role = true := by
    rcases hm with hstart | hinner
    · exact ⟨.start, hstart⟩
    · exact ⟨.inner, hinner⟩
  obtain ⟨known, hknown⟩ := hrole
  obtain ⟨n, hn, -⟩ := (says_iff_find h).1 ((hsaid known).2 hknown)
  have hgroup : n.group = m.group := by
    unfold find at hn
    simpa using List.find?_some hn
  have hsame : ∀ role, n.has role = m.has role := by
    intro role
    rw [Bool.eq_iff_iff, ← hsaid role, says_iff_find h, hn]
    simp
  have heq : n = m := by
    obtain ⟨_, _, _, _⟩ := n
    obtain ⟨_, _, _, _⟩ := m
    exact Marker.mk.injEq .. ▸ ⟨hgroup, hsame .start, hsame .inner, hsame .stop⟩
  rw [hn, heq]

theorem Ordered.find_of_mem (h : Ordered ms) (hm : m ∈ ms) : find m.group ms = some m := by
  induction ms with
  | nil => cases hm
  | cons n ms ih =>
    obtain ⟨hlt, hms⟩ := List.pairwise_cons.1 h
    rw [find_cons]
    rcases List.mem_cons.1 hm with rfl | hm
    · rw [if_pos rfl]
    · rw [if_neg (Nat.ne_of_lt (hlt m hm)), ih hms hm]

/-- Lists in order that say the same are the same. -/
theorem Ordered.eq_of_roles {ns : List Marker} (h : Ordered ms) (h' : Ordered ns)
    (hms : ∀ m ∈ ms, m.Proper) (hns : ∀ n ∈ ns, n.Proper)
    (hsaid : ∀ group role, Says ms group role ↔ Says ns group role) : ms = ns := by
  have hmem : ∀ {ms ns : List Marker}, Ordered ms → Ordered ns → (∀ m ∈ ms, m.Proper) →
      (∀ group role, Says ms group role ↔ Says ns group role) → ∀ m ∈ ms, m ∈ ns := by
    intro ms ns h h' hms hsaid m hm
    have hfind : find m.group ns = some m := by
      apply find_eq_some h' (hms m hm)
      intro role
      rw [← hsaid, says_iff_find h, h.find_of_mem hm]
      simp
    exact List.mem_of_find?_eq_some hfind
  refine List.Perm.eq_of_pairwise (fun m n _ _ hmn hnm => ?_) h h' ?_
  · exact absurd hmn (Nat.lt_asymm hnm)
  · apply (List.perm_ext_iff_of_nodup (h.imp ?_) (h'.imp ?_)).2
    · intro m
      exact ⟨hmem h h' hms hsaid m, hmem h' h hns (fun group role => (hsaid group role).symm) m⟩
    · rintro m n hlt rfl
      exact Nat.lt_irrefl _ hlt
    · rintro m n hlt rfl
      exact Nat.lt_irrefl _ hlt

end Marker

/-- The positions of a way, with the marker that a group has at each. -/
abbrev Track := List (Nat × Option Marker)

/-- The track of a group on a way. -/
def Track.ofWay (group : Nat) (way : List (Nat × List Marker)) : Track :=
  way.map fun p => (p.1, Marker.find group p.2)

namespace Span

open OpenSpan (slot turn run)

variable {opened : List OpenSpan} {ms : List Marker} {position group : Nat}

/-! ## One position -/

theorem ofGroup_append (spans spans' : List Span) :
    ofGroup (spans ++ spans') group = ofGroup spans group ++ ofGroup spans' group :=
  List.filter_append _ _

theorem ofGroup_of_forall {spans : List Span} {g : Nat} (h : ∀ span ∈ spans, span.group = g) :
    ofGroup spans group = if g = group then spans else [] := by
  unfold ofGroup
  split
  · next heq =>
    refine List.filter_eq_self.2 fun span hspan => ?_
    rw [h span hspan, decide_eq_true heq]
  · next hne =>
    refine List.filter_eq_nil_iff.2 fun span hspan => ?_
    rw [h span hspan, decide_eq_false hne]
    exact Bool.false_ne_true

theorem ofGroup_close (s : OpenSpan) :
    ofGroup s.close group = if s.group = group then s.close else [] :=
  ofGroup_of_forall fun _ => OpenSpan.group_of_mem_close

/-- The groups that are open after a position were open before it or have a marker there. -/
theorem group_of_mem_step {o : OpenSpan} (h : o ∈ (step position opened ms).2) :
    (∃ s ∈ opened, s.group = o.group) ∨ ∃ m ∈ ms, m.group = o.group := by
  fun_induction step position opened ms with
  | case1 => cases h
  | case2 s opened later ih => grind
  | case3 m ms later hstart ih => grind [OpenSpan.beginAt]
  | case4 m ms later hstart ih => grind
  | case5 s opened m ms heq now later ih => grind [OpenSpan.group_advance]
  | case6 s opened m ms hne hlt later ih => grind
  | case7 s opened m ms hne hlt later hstart ih => grind [OpenSpan.beginAt]
  | case8 s opened m ms hne hlt later hstart ih => grind

theorem ordered_step (ho : OpenSpan.Ordered opened) (hms : Marker.Ordered ms) :
    OpenSpan.Ordered (step position opened ms).2 := by
  fun_induction step position opened ms with
  | case1 => exact List.Pairwise.nil
  | case2 s opened later ih => exact ih (List.pairwise_cons.1 ho).2 hms
  | case3 m ms later hstart ih =>
    obtain ⟨hm, hms⟩ := List.pairwise_cons.1 hms
    refine List.pairwise_cons.2 ⟨fun o hmem => ?_, ih ho hms⟩
    rcases group_of_mem_step hmem with ⟨t, ht, -⟩ | ⟨n, hn, heq⟩
    · cases ht
    · exact heq ▸ hm n hn
  | case4 m ms later hstart ih => exact ih ho (List.pairwise_cons.1 hms).2
  | case5 s opened m ms heq now later ih =>
    obtain ⟨hs, ho⟩ := List.pairwise_cons.1 ho
    obtain ⟨hm, hms⟩ := List.pairwise_cons.1 hms
    have hnow : now.2.group = m.group := (OpenSpan.group_advance position heq).1
    refine List.pairwise_cons.2 ⟨fun o hmem => ?_, ih ho hms⟩
    rw [hnow]
    rcases group_of_mem_step hmem with ⟨t, ht, htg⟩ | ⟨n, hn, hng⟩
    · exact htg ▸ heq ▸ hs t ht
    · exact hng ▸ hm n hn
  | case6 s opened m ms hne hlt later ih => exact ih (List.pairwise_cons.1 ho).2 hms
  | case7 s opened m ms hne hlt later hstart ih =>
    obtain ⟨hm, hms⟩ := List.pairwise_cons.1 hms
    refine List.pairwise_cons.2 ⟨fun o hmem => ?_, ih ho hms⟩
    have hms' : m.group < s.group := by omega
    rcases group_of_mem_step hmem with ⟨t, ht, htg⟩ | ⟨n, hn, hng⟩
    · rcases List.mem_cons.1 ht with rfl | ht
      · exact htg ▸ hms'
      · have := (List.pairwise_cons.1 ho).1 t ht
        exact htg ▸ Nat.lt_trans hms' this
    · exact hng ▸ hm n hn
  | case8 s opened m ms hne hlt later hstart ih => exact ih ho (List.pairwise_cons.1 hms).2

section Turn

variable {s : OpenSpan} {m : Marker} {s? : Option OpenSpan} {m? : Option Marker}
  {later : List Span × List OpenSpan}

/-- A span is over: for its group there is no marker, and for the others nothing changes. -/
theorem turn_over (hs : s.group = group → slot group opened = none ∧ m? = none)
    (hlater : (ofGroup later.1 group, slot group later.2) = turn position (slot group opened) m?) :
    (ofGroup (s.close ++ later.1) group, slot group later.2) =
      turn position (slot group (s :: opened)) m? := by
  rw [ofGroup_append, ofGroup_close, OpenSpan.slot_cons]
  split
  · next hgroup =>
    obtain ⟨hslot, rfl⟩ := hs hgroup
    rw [hslot] at hlater
    obtain ⟨hspans, hopened⟩ := Prod.mk.inj hlater
    rw [hspans, hopened, List.append_nil]
    rfl
  · exact hlater

/-- A marker is met: for its group there is no span, and for the others nothing changes. -/
theorem turn_met (hm : m.group = group → s? = none ∧ Marker.find group ms = none)
    (hlater : (ofGroup later.1 group, slot group later.2) =
      turn position s? (Marker.find group ms)) :
    (ofGroup later.1 group, slot group
        (if m.start then OpenSpan.beginAt m.group position m.stop :: later.2 else later.2)) =
      turn position s? (Marker.find group (m :: ms)) := by
  rw [Marker.find_cons]
  by_cases hgroup : m.group = group
  · obtain ⟨rfl, hfind⟩ := hm hgroup
    rw [hfind] at hlater
    obtain ⟨hspans, hopened⟩ := Prod.mk.inj hlater
    rw [if_pos hgroup, hspans, turn]
    split
    · rw [OpenSpan.slot_cons]
      exact congrArg _ (if_pos hgroup)
    · rw [hopened]
  · rw [if_neg hgroup, ← hlater]
    split
    · rw [OpenSpan.slot_cons]
      exact congrArg _ (if_neg hgroup)
    · rfl

/-- A span meets a marker of its group. -/
theorem turn_both (hgroup : s.group = m.group)
    (hs : s.group = group → slot group opened = none ∧ Marker.find group ms = none)
    (hlater : (ofGroup later.1 group, slot group later.2) =
      turn position (slot group opened) (Marker.find group ms)) :
    (ofGroup ((s.advance m position).1 ++ later.1) group,
        slot group ((s.advance m position).2 :: later.2)) =
      turn position (slot group (s :: opened)) (Marker.find group (m :: ms)) := by
  obtain ⟨hopen, hspans⟩ := OpenSpan.group_advance position hgroup
  rw [ofGroup_append, ofGroup_of_forall hspans, OpenSpan.slot_cons, OpenSpan.slot_cons,
    Marker.find_cons, hopen, hgroup]
  split
  · next heq =>
    obtain ⟨hslot, hfind⟩ := hs (hgroup.trans heq)
    rw [hslot, hfind] at hlater
    obtain ⟨hlater, -⟩ := Prod.mk.inj hlater
    rw [hlater, List.append_nil]
    rfl
  · exact hlater

end Turn

/-- What becomes of a group at a position depends on its own span and its own marker. -/
theorem ofGroup_step (position group : Nat) (ho : OpenSpan.Ordered opened)
    (hms : Marker.Ordered ms) :
    (ofGroup (step position opened ms).1 group, slot group (step position opened ms).2) =
      turn position (slot group opened) (Marker.find group ms) := by
  fun_induction step position opened ms with
  | case1 => rfl
  | case2 s opened later ih => -- no marker is left, the span is over
    refine turn_over (fun hs => ⟨hs ▸ ho.slot_tail, rfl⟩) ?_
    exact ih (List.pairwise_cons.1 ho).2 hms
  | case3 m ms later hstart ih => -- no span is left, the marker opens one
    have hmet := turn_met (fun hm => ⟨rfl, hm ▸ hms.find_tail⟩)
      (ih ho (List.pairwise_cons.1 hms).2)
    rwa [if_pos hstart] at hmet
  | case4 m ms later hstart ih => -- no span is left, the marker opens none
    have hmet := turn_met (fun hm => ⟨rfl, hm ▸ hms.find_tail⟩)
      (ih ho (List.pairwise_cons.1 hms).2)
    rwa [if_neg hstart] at hmet
  | case5 s opened m ms heq now later ih => -- the span goes on under the marker
    refine turn_both heq (fun hs => ⟨hs ▸ ho.slot_tail, ?_⟩)
      (ih (List.pairwise_cons.1 ho).2 (List.pairwise_cons.1 hms).2)
    exact hs ▸ heq ▸ hms.find_tail
  | case6 s opened m ms hne hlt later ih => -- the span is over
    refine turn_over (fun hs => ⟨hs ▸ ho.slot_tail, hs ▸ hms.find_of_lt hlt⟩) ?_
    exact ih (List.pairwise_cons.1 ho).2 hms
  | case7 s opened m ms hne hlt later hstart ih => -- the marker opens a span
    have hgt : m.group < s.group := by omega
    have hmet := turn_met (fun hm => ⟨hm ▸ ho.slot_of_lt hgt, hm ▸ hms.find_tail⟩)
      (ih ho (List.pairwise_cons.1 hms).2)
    rwa [if_pos hstart] at hmet
  | case8 s opened m ms hne hlt later hstart ih => -- the marker opens none
    have hgt : m.group < s.group := by omega
    have hmet := turn_met (fun hm => ⟨hm ▸ ho.slot_of_lt hgt, hm ▸ hms.find_tail⟩)
      (ih ho (List.pairwise_cons.1 hms).2)
    rwa [if_neg hstart] at hmet

/-! ## The slot along a whole way -/

theorem ofGroup_flatMap_close (ho : OpenSpan.Ordered opened) :
    ofGroup (opened.flatMap OpenSpan.close) group =
      (slot group opened).toList.flatMap OpenSpan.close := by
  induction opened with
  | nil => rfl
  | cons s opened ih =>
    rw [List.flatMap_cons, ofGroup_append, ofGroup_close, ih (List.pairwise_cons.1 ho).2,
      OpenSpan.slot_cons]
    split
    · next hgroup =>
      rw [← hgroup, ho.slot_tail]
      simp
    · rfl

/-- The spans of a group are those of its slot. -/
theorem ofGroup_ofTrail {way : List (Nat × List Marker)} (ho : OpenSpan.Ordered opened)
    (hway : ∀ p ∈ way, Marker.Ordered p.2) :
    ofGroup (ofTrail opened way) group =
      run (slot group opened) (Track.ofWay group way) := by
  induction way generalizing opened with
  | nil => exact ofGroup_flatMap_close ho
  | cons p way ih =>
    obtain ⟨hp, hway⟩ := List.forall_mem_cons.1 hway
    obtain ⟨hspans, hslot⟩ := Prod.mk.inj (ofGroup_step p.1 group ho hp)
    rw [ofTrail, ofGroup_append, ih (ordered_step ho hp) hway, hspans, hslot]
    rfl

end Span

end LongestMatch
