import LongestMatch.Proofs.Slots
import Mathlib.Data.Nat.Find

/-!
# What the spans of a group tell

Which spans a slot reports depends on nothing but the positions at which the group has its roles
(`Presence`). A span begins where the group begins, lies inside the group from there on, does not
begin anew, and contains a place where the group ends (`Presence.Traced`). It goes as far as it can:
the next position is not inside the group any more, or the group begins anew at the last one
(`Presence.Reports`).

* `Track.exists_mem_run_iff` — a slot that is taken along the track of a group reports exactly these
  spans.
* `Presence.exists_reports` — where a group begins and goes on to a place where it ends, without
  beginning anew, there is one of them.
-/

namespace LongestMatch

/-! ## Positions and roles -/

/-- The positions at which a group has each of the roles. -/
abbrev Presence := Role → Nat → Prop

namespace Presence

variable {has : Presence} {s e f k n : Nat}

/-- Before the `k`-th position the group begins somewhere, and it is inside from there on. -/
def Live (has : Presence) (k : Nat) : Prop :=
  ∃ b < k, has .start b ∧ ∀ i, b < i → i < k → has .inner i

/-- At one position the group begins, and it goes on to another without beginning anew in
between. -/
structure Goes (has : Presence) (s e : Nat) : Prop where
  le : s ≤ e
  begins : has .start s
  inner : ∀ i, s < i → i ≤ e → has .inner i
  alone : ∀ i, s < i → i < e → ¬has .start i

/-- Between two positions the group ends somewhere. If it ends where it begins, this is not the end
of what began before. -/
def Completes (has : Presence) (s e : Nat) : Prop :=
  ∃ f, s ≤ f ∧ f ≤ e ∧ has .stop f ∧ (f = s → ¬has.Live s)

/-- Between two positions the group begins, goes on, and ends somewhere. -/
structure Traced (has : Presence) (s e : Nat) : Prop extends has.Goes s e where
  completes : has.Completes s e

/-- Between two positions the group is traced, and not any farther: if it is inside at the next
position, it has begun anew at the last one. -/
structure Reports (has : Presence) (s e : Nat) : Prop extends has.Traced s e where
  closes : has .inner (e + 1) → s < e ∧ has .start e

theorem live_succ : has.Live (k + 1) ↔ has .start k ∨ has.Live k ∧ has .inner k := by
  constructor
  · intro h
    obtain ⟨b, hb, hstart, hinner⟩ := h
    rcases Nat.lt_succ_iff_lt_or_eq.1 hb with hlt | rfl
    · exact .inr ⟨⟨b, hlt, hstart, fun i hi hik => hinner i hi (Nat.lt_succ_of_lt hik)⟩,
        hinner k hlt (Nat.lt_succ_self k)⟩
    · exact .inl hstart
  · intro h
    rcases h with hstart | ⟨⟨b, hb, hstart, hinner⟩, hk⟩
    · exact ⟨k, Nat.lt_succ_self k, hstart, fun i hi hik => by omega⟩
    · refine ⟨b, Nat.lt_succ_of_lt hb, hstart, fun i hi hik => ?_⟩
      rcases Nat.lt_succ_iff_lt_or_eq.1 hik with hik | rfl
      · exact hinner i hi hik
      · exact hk

theorem completes_self : has.Completes s s ↔ has .stop s ∧ ¬has.Live s := by
  constructor
  · intro h
    obtain ⟨f, hsf, hfs, hstop, hfirst⟩ := h
    obtain rfl := Nat.le_antisymm hfs hsf
    exact ⟨hstop, hfirst rfl⟩
  · intro h
    exact ⟨s, Nat.le_refl s, Nat.le_refl s, h.1, fun _ => h.2⟩

theorem completes_succ (hle : s ≤ e) :
    has.Completes s (e + 1) ↔ has.Completes s e ∨ has .stop (e + 1) := by
  constructor
  · intro h
    obtain ⟨f, hsf, hfe, hstop, hfirst⟩ := h
    rcases Nat.le_succ_iff.1 hfe with hfe | rfl
    · exact .inl ⟨f, hsf, hfe, hstop, hfirst⟩
    · exact .inr hstop
  · intro h
    rcases h with ⟨f, hsf, hfe, hf⟩ | hstop
    · exact ⟨f, hsf, Nat.le_succ_of_le hfe, hf⟩
    · exact ⟨e + 1, Nat.le_succ_of_le hle, Nat.le_refl _, hstop, fun heq => by omega⟩

theorem goes_self (h : has .start s) : has.Goes s s :=
  ⟨Nat.le_refl s, h, fun i hlt hle => by omega, fun i hlt hle => by omega⟩

theorem Goes.live (h : has.Goes s e) : has.Live (e + 1) :=
  ⟨s, Nat.lt_succ_of_le h.le, h.begins, fun i hlt hle => h.inner i hlt (Nat.lt_succ_iff.1 hle)⟩

/-- Inside the group, where it does not begin anew, it goes on. -/
theorem Goes.succ (h : has.Goes s e) (hlast : s < e → ¬has .start e) (hinner : has .inner (e + 1)) :
    has.Goes s (e + 1) := by
  refine ⟨Nat.le_succ_of_le h.le, h.begins, fun i hlt hle => ?_, fun i hlt hle => ?_⟩
  · rcases Nat.le_succ_iff.1 hle with hle | rfl
    · exact h.inner i hlt hle
    · exact hinner
  · rcases Nat.lt_succ_iff_lt_or_eq.1 hle with hle | rfl
    · exact h.alone i hlt hle
    · exact hlast hlt

/-- What goes on to a position without beginning anew there began at the last place possible. -/
theorem Goes.le_of_goes (h : has.Goes s e) (h' : has.Goes f e) (hlast : f < e → ¬has .start e) :
    s ≤ f := by
  by_contra hlt
  rw [Nat.not_le] at hlt
  rcases Nat.eq_or_lt_of_le h.le with rfl | hse
  · exact hlast hlt h.begins
  · exact h'.alone s hlt hse h.begins

/-- Where a group begins and goes on to a later place where it ends, without beginning anew, it is
traced from there as far as it goes. -/
theorem exists_reports (hstart : has .start s) (hlt : s < f)
    (hinner : ∀ i, s < i → i ≤ f → has .inner i) (halone : ∀ i, s < i → i ≤ f → ¬has .start i)
    (hstop : has .stop f) (hle : f ≤ n) (hend : ¬has .inner (n + 1)) :
    ∃ e, f ≤ e ∧ has.Reports s e := by
  classical
  have hexists : ∃ e, f ≤ e ∧ (has .inner (e + 1) → has .start e) :=
    ⟨n, hle, fun h => absurd h hend⟩
  obtain ⟨hfe, hcloses⟩ := Nat.find_spec hexists
  generalize he : Nat.find hexists = e at hfe hcloses
  -- up to there it goes on
  have hon : ∀ i, f ≤ i → i < e → has .inner (i + 1) ∧ ¬has .start i := by
    intro i hfi hie
    have hnot := Nat.find_min hexists (he ▸ hie)
    exact Classical.not_imp.1 fun h => hnot ⟨hfi, h⟩
  have hgoes : has.Goes s e := by
    refine ⟨by omega, hstart, fun i hsi hie => ?_, fun i hsi hie => ?_⟩
    · rcases Nat.lt_or_ge f i with hfi | hif
      · obtain ⟨k, rfl⟩ : ∃ k, i = k + 1 := ⟨i - 1, by omega⟩
        exact (hon k (by omega) hie).1
      · exact hinner i hsi hif
    · rcases Nat.lt_or_ge i f with hif | hfi
      · exact halone i hsi (Nat.le_of_lt hif)
      · exact (hon i hfi hie).2
  have hcompletes : has.Completes s e :=
    ⟨f, Nat.le_of_lt hlt, hfe, hstop, fun heq => absurd heq (Nat.ne_of_gt hlt)⟩
  exact ⟨e, hfe, ⟨hgoes, hcompletes⟩, fun h => ⟨by omega, hcloses h⟩⟩

end Presence

/-! ## A slot on a track -/

namespace Track

open OpenSpan (turn run beginAt)

variable {track : Track} {role : Role} {s e k position : Nat} {o : OpenSpan} {m : Marker}
  {m? : Option Marker}

/-- The positions of a track at which the group has a role. -/
def Has (track : Track) : Presence := fun role k =>
  ∃ position m, track[k]? = some (position, some m) ∧ m.has role = true

/-- A span that has come as far as the position `e`. -/
structure Running (track : Track) (s e : Nat) (o : OpenSpan) : Prop extends track.Has.Goes s e where
  start_eq : track[s]?.map Prod.fst = some o.start
  stop_eq : track[e]?.map Prod.fst = some o.stop
  complete_iff : o.complete = true ↔ track.Has.Completes s e

/-- What is reported begins and ends at two positions for which the roles say so. -/
def Reports (track : Track) (span : Span) : Prop :=
  ∃ s e, track[s]?.map Prod.fst = some span.start ∧ track[e]?.map Prod.fst = some span.stop ∧
    track.Has.Reports s e

/-- After `k` positions nothing is open and the group is not live, or what is open has come as far
as the last position and did not begin anew there. -/
def Keeps (track : Track) (k : Nat) : Option OpenSpan → Prop
  | none => ¬track.Has.Live k
  | some o => ∃ s e, k = e + 1 ∧ track.Running s e o ∧ (s < e → ¬track.Has .start e)

theorem Running.reports (h : track.Running s e o)
    (hcloses : track.Has .inner (e + 1) → s < e ∧ track.Has .start e) :
    ∀ span ∈ o.close, track.Reports span := by
  intro span hspan
  unfold OpenSpan.close at hspan
  split at hspan
  · next hcomplete =>
    obtain rfl := List.mem_singleton.1 hspan
    exact ⟨s, e, h.start_eq, h.stop_eq, ⟨h.toGoes, h.complete_iff.1 hcomplete⟩, hcloses⟩
  · cases hspan

theorem mem_close (h : o.complete = true) : ⟨o.start, o.stop, o.group⟩ ∈ o.close := by
  rw [OpenSpan.close, if_pos h]
  exact List.mem_singleton_self _

/-! ### One position -/

theorem has_iff_of_some (hk : track[k]? = some (position, some m)) :
    track.Has role k ↔ m.has role = true := by
  simp [Has, hk]

theorem not_has_of_none (hk : track[k]? = some (position, none)) : ¬track.Has role k := by
  simp [Has, hk]

/-- A span that begins. -/
theorem keeps_beginAt {group : Nat} {complete : Bool} (hk : track[k]? = some (position, m?))
    (hstart : track.Has .start k)
    (hcomplete : complete = true ↔ track.Has .stop k ∧ ¬track.Has.Live k) :
    track.Keeps (k + 1) (some (beginAt group position complete)) := by
  have hat : track[k]?.map Prod.fst = some position := by
    rw [hk]
    rfl
  refine ⟨k, k, rfl, ⟨Presence.goes_self hstart, hat, hat, ?_⟩, fun hlt => ?_⟩
  · rw [Presence.completes_self]
    exact hcomplete
  · omega

/-- Under a marker inside the group a span comes as far as this position. -/
theorem Running.grow (h : track.Running s e o) (hlast : s < e → ¬track.Has .start e)
    (hk : track[e + 1]? = some (position, some m)) (hinner : m.inner = true) :
    track.Running s (e + 1) (o.grow m position) := by
  rw [OpenSpan.grow_of_inner hinner]
  have hgoes := h.toGoes.succ hlast ((has_iff_of_some hk).2 hinner)
  have hat : track[e + 1]?.map Prod.fst = some position := by
    rw [hk]
    rfl
  refine ⟨hgoes, h.start_eq, hat, ?_⟩
  have hstop : track.Has .stop (e + 1) ↔ m.stop = true := has_iff_of_some hk
  rw [Presence.completes_succ h.le, ← h.complete_iff, hstop]
  exact Bool.or_eq_true_iff

/-- A span goes on under a marker of its group. -/
theorem Running.advance (h : track.Running s e o) (hlast : s < e → ¬track.Has .start e)
    (hk : track[e + 1]? = some (position, some m)) (hm : m.Proper) :
    (∀ span ∈ (o.advance m position).1, track.Reports span) ∧
      track.Keeps (e + 1 + 1) (some (o.advance m position).2) := by
  rw [OpenSpan.advance_eq]
  split
  · next hstart =>
    have hanew : track.Has .start (e + 1) := (has_iff_of_some hk).2 hstart
    constructor
    · by_cases hinner : m.inner = true
      · exact (h.grow hlast hk hinner).reports fun _ => ⟨Nat.lt_succ_of_le h.le, hanew⟩
      · rw [OpenSpan.grow, if_neg hinner]
        exact h.reports fun hhas => absurd ((has_iff_of_some hk).1 hhas) hinner
    · -- the new span is not complete, even if the group ends here, since one was open
      refine keeps_beginAt hk hanew ?_
      simp [h.toGoes.live]
  · next hstart =>
    have hinner : m.inner = true := hm.resolve_left hstart
    exact ⟨fun span hspan => absurd hspan List.not_mem_nil, s, e + 1, rfl,
      h.grow hlast hk hinner, fun _ hhas => hstart ((has_iff_of_some hk).1 hhas)⟩

/-- One position keeps it, and what is reported there is what the roles say. -/
theorem Keeps.turn {open? : Option OpenSpan} (h : track.Keeps k open?)
    (hk : track[k]? = some (position, m?)) (hm : ∀ m ∈ m?, m.Proper) :
    (∀ span ∈ (turn position open? m?).1, track.Reports span) ∧
      track.Keeps (k + 1) (OpenSpan.turn position open? m?).2 := by
  cases m? with
  | none => -- without a marker the group is over, and what is open is reported
    have hlive : ¬track.Has.Live (k + 1) := by
      rw [Presence.live_succ]
      rintro (hstart | ⟨-, hinner⟩)
      · exact not_has_of_none hk hstart
      · exact not_has_of_none hk hinner
    cases open? with
    | none => exact ⟨fun span hspan => absurd hspan List.not_mem_nil, hlive⟩
    | some o =>
      obtain ⟨s, e, rfl, hrunning, -⟩ := h
      exact ⟨hrunning.reports fun hinner => absurd hinner (not_has_of_none hk), hlive⟩
  | some m =>
    cases open? with
    | none =>
      refine ⟨fun span hspan => absurd hspan List.not_mem_nil, ?_⟩
      rw [OpenSpan.turn]
      split
      · next hstart => -- nothing was live, so if the group ends here, it is what begins here
        apply keeps_beginAt hk ((has_iff_of_some hk).2 hstart)
        rw [has_iff_of_some hk]
        exact (and_iff_left h).symm
      · next hstart =>
        show ¬track.Has.Live (k + 1)
        rw [Presence.live_succ]
        rintro (hhas | ⟨hlive, -⟩)
        · exact hstart ((has_iff_of_some hk).1 hhas)
        · exact h hlive
    | some o =>
      obtain ⟨s, e, rfl, hrunning, hlast⟩ := h
      exact hrunning.advance hlast hk (hm m rfl)

/-! ### The rest of a track -/

theorem run_drop (hk : track[k]? = some (position, m?)) (open? : Option OpenSpan) :
    run open? (track.drop k) =
      (turn position open? m?).1 ++ run (turn position open? m?).2 (track.drop (k + 1)) := by
  obtain ⟨hlt, hget⟩ := List.getElem?_eq_some_iff.1 hk
  rw [List.drop_eq_getElem_cons hlt, hget, run]

theorem run_drop_of_length_le (hk : track.length ≤ k) (open? : Option OpenSpan) :
    run open? (track.drop k) = open?.toList.flatMap OpenSpan.close := by
  rw [List.drop_of_length_le hk, run]

theorem Has.lt_length (h : track.Has role k) : k < track.length := by
  obtain ⟨position, m, hk, -⟩ := h
  exact (List.getElem?_eq_some_iff.1 hk).1

theorem keeps_zero : track.Keeps 0 none := by
  rintro ⟨b, hb, -⟩
  cases hb

section Proper

variable (hm : ∀ p ∈ track, ∀ m ∈ p.2, m.Proper)

include hm

/-- What a slot reports on the rest of a track is what the roles say on the whole of it. -/
theorem Keeps.run {open? : Option OpenSpan} (h : track.Keeps k open?) :
    ∀ span ∈ run open? (track.drop k), track.Reports span := by
  intro span hspan
  induction hn : track.length - k generalizing k open? with
  | zero =>
    rw [run_drop_of_length_le (by omega)] at hspan
    cases open? with
    | none => cases hspan
    | some o =>
      obtain ⟨s, e, rfl, hrunning, -⟩ := h
      refine hrunning.reports (fun hinner => ?_) span (by simpa using hspan)
      have := hinner.lt_length
      omega
  | succ n ih =>
    have hk := List.getElem?_eq_getElem (show k < track.length by omega)
    obtain ⟨hnow, hkeeps⟩ := h.turn hk (hm _ (List.mem_of_getElem? hk))
    rw [run_drop hk] at hspan
    rcases List.mem_append.1 hspan with hspan | hspan
    · exact hnow span hspan
    · exact ih hkeeps hspan (by omega)

/-- After any number of positions something is kept, and what it reports on the rest of the track is
reported on the whole. -/
theorem exists_keeps (hk : k ≤ track.length) :
    ∃ open?, track.Keeps k open? ∧ ∀ span ∈ OpenSpan.run open? (track.drop k),
      span ∈ OpenSpan.run none track := by
  induction k with
  | zero => exact ⟨none, keeps_zero, fun span hspan => hspan⟩
  | succ k ih =>
    obtain ⟨open?, hkeeps, hrest⟩ := ih (Nat.le_of_succ_le hk)
    have hat := List.getElem?_eq_getElem (Nat.lt_of_succ_le hk)
    refine ⟨_, (hkeeps.turn hat (hm _ (List.mem_of_getElem? hat))).2, fun span hspan => ?_⟩
    apply hrest
    rw [run_drop hat]
    exact List.mem_append_right _ hspan

/-- What goes on to a position without beginning anew there is open behind it. -/
theorem exists_running (h : track.Has.Goes s e) (hlast : s < e → ¬track.Has .start e)
    (he : e < track.length) :
    ∃ o, track.Running s e o ∧ ∀ span ∈ OpenSpan.run (some o) (track.drop (e + 1)),
      span ∈ OpenSpan.run none track := by
  obtain ⟨open?, hkeeps, hrest⟩ := exists_keeps hm (Nat.succ_le_of_lt he)
  cases open? with
  | none => exact absurd h.live hkeeps
  | some o =>
    obtain ⟨f, e', heq, hrunning, hlast'⟩ := hkeeps
    obtain rfl : e = e' := Nat.succ.inj heq
    obtain rfl : s = f := Nat.le_antisymm (h.le_of_goes hrunning.toGoes hlast')
      (hrunning.toGoes.le_of_goes h hlast)
    exact ⟨o, hrunning, hrest⟩

omit hm in
/-- What is open and complete is reported where the group begins anew. -/
theorem exists_mem_run_of_start (hk : track[k]? = some (position, some m)) (hstart : m.start = true)
    (hcomplete : (o.grow m position).complete = true) :
    ∃ span ∈ run (some o) (track.drop k), span.start = o.start ∧
      span.stop = (o.grow m position).stop := by
  rw [run_drop hk, turn, OpenSpan.advance_eq, if_pos hstart]
  exact ⟨_, List.mem_append_left _ (mem_close hcomplete), OpenSpan.start_grow, rfl⟩

/-- What is open and complete is reported where it is not inside the group any more. -/
theorem exists_mem_run_of_not_inner (hcomplete : o.complete = true) (hinner : ¬track.Has .inner k) :
    ∃ span ∈ OpenSpan.run (some o) (track.drop k), span.start = o.start ∧ span.stop = o.stop := by
  rcases Nat.lt_or_ge k track.length with hlt | hge
  · obtain ⟨⟨position, m?⟩, hk⟩ : ∃ p, track[k]? = some p := ⟨_, List.getElem?_eq_getElem hlt⟩
    cases m? with
    | none =>
      rw [run_drop hk]
      exact ⟨_, List.mem_append_left _ (mem_close hcomplete), rfl, rfl⟩
    | some m =>
      have hnot : ¬m.inner = true := fun h => hinner ((has_iff_of_some hk).2 h)
      have hstart : m.start = true := (hm _ (List.mem_of_getElem? hk) m rfl).resolve_right hnot
      have hsame : o.grow m position = o := if_neg hnot
      have := exists_mem_run_of_start (o := o) hk hstart (hsame.symm ▸ hcomplete)
      rwa [hsame] at this
  · rw [run_drop_of_length_le hge]
    exact ⟨_, by simpa using mem_close hcomplete, rfl, rfl⟩

/-- What the roles say is reported. -/
theorem exists_mem_run (h : track.Has.Reports s e) :
    ∃ span ∈ OpenSpan.run none track, track[s]?.map Prod.fst = some span.start ∧
      track[e]?.map Prod.fst = some span.stop := by
  have he : e < track.length := by
    rcases Nat.eq_or_lt_of_le h.le with rfl | hlt
    · exact h.begins.lt_length
    · exact (h.inner e hlt (Nat.le_refl e)).lt_length
  by_cases hanew : s < e ∧ track.Has .start e
  · -- the group begins anew at the last position
    obtain ⟨hlt, position, m, hk, hstart⟩ := hanew
    obtain ⟨k, rfl⟩ : ∃ k, e = k + 1 := ⟨e - 1, by omega⟩
    have hgoes : track.Has.Goes s k := ⟨by omega, h.begins,
      fun i hsi hik => h.inner i hsi (by omega), fun i hsi hik => h.alone i hsi (by omega)⟩
    have hlast : s < k → ¬track.Has .start k := fun hsk => h.alone k hsk (Nat.lt_succ_self k)
    obtain ⟨o, hrunning, hrest⟩ := exists_running hm hgoes hlast (by omega)
    have hinner : m.inner = true := (has_iff_of_some hk).1 (h.inner (k + 1) hlt (Nat.le_refl _))
    have hgrown := hrunning.grow hlast hk hinner
    obtain ⟨span, hspan, hspanstart, hspanstop⟩ :=
      exists_mem_run_of_start hk hstart (hgrown.complete_iff.2 h.completes)
    exact ⟨span, hrest span hspan, hspanstart ▸ hrunning.start_eq, hspanstop ▸ hgrown.stop_eq⟩
  · obtain ⟨o, hrunning, hrest⟩ :=
      exists_running hm h.toGoes (fun hlt hstart => hanew ⟨hlt, hstart⟩) he
    obtain ⟨span, hspan, hspanstart, hspanstop⟩ := exists_mem_run_of_not_inner hm
      (hrunning.complete_iff.2 h.completes) fun hinner => hanew (h.closes hinner)
    exact ⟨span, hrest span hspan, hspanstart ▸ hrunning.start_eq, hspanstop ▸ hrunning.stop_eq⟩

/-- A slot reports the spans between the positions for which the roles say so, and no others. -/
theorem exists_mem_run_iff {start stop : Nat} :
    (∃ span ∈ OpenSpan.run none track, span.start = start ∧ span.stop = stop) ↔
      ∃ s e, track[s]?.map Prod.fst = some start ∧ track[e]?.map Prod.fst = some stop ∧
        track.Has.Reports s e := by
  constructor
  · rintro ⟨span, hspan, rfl, rfl⟩
    exact keeps_zero.run hm span hspan
  · rintro ⟨s, e, hstart, hstop, h⟩
    obtain ⟨span, hspan, hspanstart, hspanstop⟩ := exists_mem_run hm h
    exact ⟨span, hspan, Option.some.inj (hspanstart.symm.trans hstart),
      Option.some.inj (hspanstop.symm.trans hstop)⟩

end Proper

end Track

end LongestMatch
