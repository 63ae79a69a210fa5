import LongestMatch.Proofs.Tables
import Mathlib.Data.List.Chain

/-!
# Reading tables back

A list of transitions without two entries that could be one is the only such list for what it says
(`Joined.eq_of_leads`). Joining a sorted list makes it one (`joined_join`), and so does reading the
slots of a dense table one by one. So a table gives the list back that it was built from, whatever
its form (`transitions_build`).
-/

namespace LongestMatch

namespace Transition

/-! ## The shortest list -/

/-- The later transition goes on where the earlier one ends, so that one entry could be both. -/
def Continues (t u : Transition) : Prop :=
  t.target = u.target ∧ areNeighbours t.hi u.lo = true

/-- A sorted list in which no entry continues the one before it. -/
structure Joined (ts : List Transition) : Prop where
  sorted : Sorted ts
  apart : ts.IsChain fun t u => ¬Continues t u

variable {ts us done : List Transition} {t u : Transition}

theorem Joined.tail (h : Joined (t :: ts)) : Joined ts :=
  ⟨h.sorted.tail, h.apart.tail⟩

/-- The same with the latest entry in front. -/
def Apart (done : List Transition) : Prop :=
  done.IsChain fun u t => ¬Continues t u

/-- An entry that grows begins where it began, so it still does not continue the one before it. -/
theorem Apart.cons (h : Apart done) (t : Transition) : Apart (Transition.cons done t) := by
  unfold Transition.cons
  split
  · exact List.isChain_singleton t
  · next last rest =>
    split
    · next hjoin =>
      cases rest with
      | nil => exact List.isChain_singleton _
      | cons before rest =>
        obtain ⟨hbefore, hrest⟩ := List.isChain_cons_cons.1 h
        refine List.isChain_cons_cons.2 ⟨fun hcontinues => hbefore ?_, hrest⟩
        exact ⟨hcontinues.1.trans hjoin.1.symm, hcontinues.2⟩
    · next hapart => exact List.isChain_cons_cons.2 ⟨hapart, h⟩

theorem Apart.foldl (h : Apart done) (ts : List Transition) : Apart (ts.foldl Transition.cons done) := by
  induction ts generalizing done with
  | nil => exact h
  | cons t ts ih => exact ih (h.cons t)

theorem joined_join (h : Sorted ts) : Joined (join ts) := by
  refine ⟨sorted_join h, ?_⟩
  have hapart : Apart (ts.foldl Transition.cons []) := Apart.foldl List.isChain_nil ts
  rw [join, List.isChain_reverse]
  exact hapart

/-! ## It is the only one -/

section Heads

variable (ht : Joined (t :: ts)) (hu : Joined (u :: us))
  (hsame : ∀ c q, Leads (t :: ts) c q ↔ Leads (u :: us) c q)

include ht in
/-- What the first entry does not reach up to lies after it. -/
theorem Joined.lo_le_of_leads {c : Char} {q : Nat} (h : Leads (t :: ts) c q) :
    t.lo.toNat ≤ c.toNat := by
  rcases leads_cons.1 h with ⟨hc, -⟩ | ⟨v, hv, hc, -⟩
  · exact (CharRange.contains_iff.1 hc).1
  · have := (List.pairwise_cons.1 ht.sorted.pairwise).1 v hv
    have := ht.sorted.lo_le_hi t List.mem_cons_self
    have := (CharRange.contains_iff.1 hc).1
    omega

include ht hu hsame

theorem Joined.lo_eq : t.lo = u.lo := by
  have h := hu.lo_le_of_leads ((hsame _ _).1 (ht.sorted.leads_lo List.mem_cons_self))
  have h' := ht.lo_le_of_leads ((hsame _ _).2 (hu.sorted.leads_lo List.mem_cons_self))
  exact Char.toNat_inj.1 (Nat.le_antisymm h' h)

theorem Joined.target_eq : t.target = u.target := by
  have hlead : Leads (u :: us) u.lo t.target := by
    rw [← ht.lo_eq hu hsame]
    exact (hsame _ _).1 (ht.sorted.leads_lo List.mem_cons_self)
  exact hu.sorted.leads_unique hlead (hu.sorted.leads_lo List.mem_cons_self)

/-- If the first entry ended early, the next one would have to continue it. -/
theorem Joined.hi_le : u.hi.toNat ≤ t.hi.toNat := by
  by_contra hlt
  have hlo := ht.lo_eq hu hsame
  have htarget := ht.target_eq hu hsame
  have huproper := hu.sorted.lo_le_hi u List.mem_cons_self
  have htproper := ht.sorted.lo_le_hi t List.mem_cons_self
  -- whatever lies in the longer entry leads to its target, also by the other list
  have hinside : ∀ c : Char, u.lo.toNat ≤ c.toNat → c.toNat ≤ u.hi.toNat →
      Leads (t :: ts) c t.target := fun c hle hle' =>
    (hsame _ _).2 ⟨u, List.mem_cons_self, CharRange.contains_iff.2 ⟨hle, hle'⟩, htarget.symm⟩
  have hlater : ∀ c : Char, t.hi.toNat < c.toNat → c.toNat ≤ u.hi.toNat → Leads ts c t.target := by
    intro c hgt hle
    rw [hlo] at htproper
    rcases leads_cons.1 (hinside c (by omega) hle) with ⟨hc, -⟩ | hlead
    · rw [CharRange.contains_iff] at hc
      omega
    · exact hlead
  obtain ⟨w, hw, hwc, -⟩ := hlater u.hi (by omega) (Nat.le_refl _)
  rw [CharRange.contains_iff] at hwc
  cases ts with
  | nil => cases hw
  | cons v rest =>
    have hgap := (List.pairwise_cons.1 ht.sorted.pairwise).1 v List.mem_cons_self
    have hvproper := ht.tail.sorted.lo_le_hi v List.mem_cons_self
    have hvw : v.lo.toNat ≤ w.lo.toNat := by
      rcases List.mem_cons.1 hw with rfl | hw
      · exact Nat.le_refl _
      · have := (List.pairwise_cons.1 ht.tail.sorted.pairwise).1 w hw
        omega
    apply (List.isChain_cons_cons.1 ht.apart).1
    constructor
    · have hlead := hlater v.lo hgap (by omega)
      exact ht.tail.sorted.leads_unique hlead (ht.tail.sorted.leads_lo List.mem_cons_self)
    · rw [areNeighbours_iff hgap]
      intro c hc
      have hlead := hlater c hc.1 (by omega)
      have := ht.tail.lo_le_of_leads hlead
      omega

end Heads

theorem Joined.head_eq (ht : Joined (t :: ts)) (hu : Joined (u :: us))
    (hsame : ∀ c q, Leads (t :: ts) c q ↔ Leads (u :: us) c q) : t = u := by
  have hlo : t.lo = u.lo := ht.lo_eq hu hsame
  have htarget : t.target = u.target := ht.target_eq hu hsame
  have hhi : t.hi = u.hi := Char.toNat_inj.1 (Nat.le_antisymm
    (hu.hi_le ht fun c q => (hsame c q).symm) (ht.hi_le hu hsame))
  obtain ⟨⟨lo, hi⟩, target⟩ := t
  cases hlo
  cases hhi
  cases htarget
  rfl

/-- What later entries say is what is said of later characters. -/
theorem Sorted.leads_tail (h : Sorted (t :: ts)) {c : Char} {q : Nat} :
    Leads ts c q ↔ Leads (t :: ts) c q ∧ t.hi.toNat < c.toNat := by
  rw [leads_cons, CharRange.contains_iff]
  constructor
  · intro hlead
    obtain ⟨v, hv, hc, -⟩ := id hlead
    rw [CharRange.contains_iff] at hc
    have := (List.pairwise_cons.1 h.pairwise).1 v hv
    exact ⟨.inr hlead, by omega⟩
  · intro hlead
    obtain ⟨⟨hc, -⟩ | hlead, hlt⟩ := hlead
    · omega
    · exact hlead

/-- Lists without entries that could be one are the same if they say the same. -/
theorem Joined.eq_of_leads (ht : Joined ts) (hu : Joined us)
    (hsame : ∀ c q, Leads ts c q ↔ Leads us c q) : ts = us := by
  induction ts generalizing us with
  | nil =>
    cases us with
    | nil => rfl
    | cons u us =>
      have hlead := (hsame _ _).2 (hu.sorted.leads_lo List.mem_cons_self)
      exact absurd hlead (leads_nil _ _)
  | cons t ts ih =>
    cases us with
    | nil =>
      have hlead := (hsame _ _).1 (ht.sorted.leads_lo List.mem_cons_self)
      exact absurd hlead (leads_nil _ _)
    | cons u us =>
      obtain rfl : t = u := ht.head_eq hu hsame
      have hrest : ts = us := ih ht.tail hu.tail fun c q => by
        rw [ht.sorted.leads_tail, hu.sorted.leads_tail, hsame]
      rw [hrest]

end Transition

namespace Table

open Transition (Joined Leads Sorted)

/-! ## Slots one by one -/

/-- The entries of slots, one for each slot that is not vacant and belongs to a character. -/
def singles (code : Nat) : List (Option Nat) → List Transition
  | [] => []
  | slot :: rest =>
    match slot, scalar? code with
    | some target, some c => ⟨CharRange.single c, target⟩ :: singles (code + 1) rest
    | _, _ => singles (code + 1) rest

/-- Reading slots adds their entries one by one. -/
theorem foldl_readSlot (slots : List (Option Nat)) (code : Nat) (done : List Transition) :
    (slots.foldl readSlot (code, done)).2 = (singles code slots).foldl Transition.cons done := by
  induction slots generalizing code done with
  | nil => rfl
  | cons slot rest ih =>
    rw [List.foldl_cons]
    unfold singles
    split
    · next target c hc =>
      rw [List.foldl_cons, ← ih]
      simp only [readSlot, hc]
    · next hvacant =>
      rw [← ih]
      unfold readSlot
      simp only

theorem transitions_dense (first : Nat) (slots : Array (Option Nat)) :
    (dense first slots).transitions = Transition.join (singles first slots.toList) := by
  rw [transitions, ← Array.foldl_toList, foldl_readSlot, Transition.join]

variable {code q : Nat} {slots : List (Option Nat)} {c : Char}

/-- A slot has the entry of its own character. -/
theorem leads_singles : Leads (singles code slots) c q ↔
    code ≤ c.toNat ∧ slots[c.toNat - code]? = some (some q) := by
  induction slots generalizing code with
  | nil => simp [singles, Transition.leads_nil]
  | cons slot rest ih =>
    -- the slot in front is for the code point itself, the others are for later ones
    have hrest : Leads (singles (code + 1) rest) c q ↔
        code < c.toNat ∧ (slot :: rest)[c.toNat - code]? = some (some q) := by
      rw [ih]
      apply and_congr_right
      intro hlt
      rw [show c.toNat - code = c.toNat - (code + 1) + 1 by omega, List.getElem?_cons_succ]
    unfold singles
    split
    · next target d hd =>
      rw [scalar?_eq_some] at hd
      rw [Transition.leads_cons, hrest, CharRange.contains_single, ← Char.toNat_inj, hd]
      rcases Nat.lt_trichotomy code c.toNat with hlt | heq | hgt
      · simp [hlt, hlt.le, hlt.ne']
      · simp [← heq]
      · simp [hgt.ne, hgt.not_ge, hgt.not_gt]
    · next hvacant =>
      rw [hrest]
      rcases Nat.lt_trichotomy code c.toNat with hlt | heq | hgt
      · simp [hlt, hlt.le]
      · have hslot := fun h => hvacant q c h (scalar?_eq_some.2 heq.symm)
        simpa [← heq] using hslot
      · simp [hgt.not_ge, hgt.not_gt]

theorem le_of_mem_singles {t : Transition} (h : t ∈ singles code slots) :
    t.lo = t.hi ∧ code ≤ t.lo.toNat := by
  induction slots generalizing code with
  | nil => cases h
  | cons slot rest ih =>
    unfold singles at h
    split at h
    · next d hd =>
      rcases List.mem_cons.1 h with rfl | h
      · exact ⟨rfl, (scalar?_eq_some.1 hd).ge⟩
      · exact ⟨(ih h).1, Nat.le_of_succ_le (ih h).2⟩
    · exact ⟨(ih h).1, Nat.le_of_succ_le (ih h).2⟩

theorem sorted_singles (code : Nat) (slots : List (Option Nat)) : Sorted (singles code slots) := by
  induction slots generalizing code with
  | nil => exact Transition.sorted_nil
  | cons slot rest ih =>
    unfold singles
    split
    · next target d hd =>
      refine ⟨List.pairwise_cons.2 ⟨fun u hu => ?_, (ih _).pairwise⟩, ?_⟩
      · exact (scalar?_eq_some.1 hd).trans_lt (le_of_mem_singles hu).2
      · exact List.forall_mem_cons.2 ⟨Nat.le_refl _, (ih _).lo_le_hi⟩
    · exact ih _

/-! ## What was built -/

/-- The transitions of a dense table lead where its slots do. -/
theorem leads_transitions_dense {first : Nat} {slots : Array (Option Nat)} :
    Leads (dense first slots).transitions c q ↔ (dense first slots).get c = some q := by
  rw [transitions_dense, Transition.leads_join (sorted_singles _ _), leads_singles, get,
    Array.getElem?_toList, Array.getD_eq_getD_getElem?]
  split
  · next hle => cases slots[c.toNat - first]? <;> simp [hle]
  · next hgt => simp [hgt]

/-- The slots of a list give it back. -/
theorem transitions_slotsOf {t u : Transition} {rest : List Transition}
    (h : Joined (t :: u :: rest)) :
    (dense t.lo.toNat (slotsOf t.lo.toNat ((rest.getLastD u).hi.toNat - t.lo.toNat + 1)
      (t :: u :: rest))).transitions = t :: u :: rest := by
  have hdense : Joined (dense t.lo.toNat (slotsOf t.lo.toNat
      ((rest.getLastD u).hi.toNat - t.lo.toNat + 1) (t :: u :: rest))).transitions := by
    rw [transitions_dense]
    exact Transition.joined_join (sorted_singles _ _)
  exact hdense.eq_of_leads h fun c q => leads_transitions_dense.trans (get_dense h.sorted)

theorem transitions_single {t : Transition} (h : t.lo = t.hi) :
    (single t.lo t.target).transitions = [t] := by
  obtain ⟨⟨lo, hi⟩, target⟩ := t
  cases h
  rfl

/-- A table gives back the list that it was built from, whatever its form. -/
theorem transitions_build (config : Config) {ts : List Transition} (h : Joined ts) :
    (build config ts).transitions = ts := by
  unfold build
  split
  · rfl
  · next t =>
    split
    · next heq => exact transitions_single heq
    · rfl
  · next t u rest =>
    simp only
    split
    · exact transitions_slotsOf h
    · rfl

end Table

end LongestMatch
