import LongestMatch.Proofs.Construction
import LongestMatch.Proofs.Marking

/-!
# Where an automaton shows the roles of its groups

After a text an automaton may be in states with a role for a group; `Nfa.showing` has the texts for
which it is. The operators put these languages together from those of the operands, with the groups
of the second operand behind those of the first (`Badge.Clean.shift`: their numbers do not wrap round).
-/

namespace LongestMatch

open scoped Computability

/-! ## Clean badges -/

namespace Badge

variable {b : Badge} {count offset group : Nat} {role : Role}

/-- The markers are sound, unbound, and of the first groups. -/
structure Clean (count : Nat) (b : Badge) : Prop where
  sound : b.2.Sound
  unbound : ∀ a group role, ¬b.2.Has (some a) group role
  lt : ∀ group role, b.2.Has none group role → group < count

/-- The badge has the role for the unbound group. -/
def Shows (group : Nat) (role : Role) (b : Badge) : Prop :=
  b.2.Has none group role

theorem not_shows_blank : ¬Shows group role blank :=
  Marks.not_has_empty

theorem clean_blank (count : Nat) : Clean count blank :=
  ⟨Marks.sound_empty, fun _ _ _ => Marks.not_has_empty,
    fun _ _ h => absurd h Marks.not_has_empty⟩

theorem Clean.mono (h : b.Clean offset) (hle : offset ≤ count) : b.Clean count :=
  ⟨h.sound, h.unbound, fun group role hhas => (h.lt group role hhas).trans_le hle⟩

/-- The groups come after others; their numbers do not wrap round, as there are not so many. -/
theorem Clean.shows_shift (h : b.Clean count) (hle : offset + count ≤ maxGroups) :
    (b.shift offset).Shows group role ↔ offset ≤ group ∧ b.Shows (group - offset) role :=
  Marks.has_shiftUnbound_of_lt h.lt (hle.trans (by decide))

theorem Clean.shift (h : b.Clean count) (hle : offset + count ≤ maxGroups) :
    (b.shift offset).Clean (offset + count) := by
  refine ⟨h.sound.shiftUnbound offset, fun a group role hhas => ?_, fun group role hhas => ?_⟩
  · exact h.unbound a group role (Marks.has_shiftUnbound_some.1 hhas)
  · obtain ⟨-, hhas⟩ := (h.shows_shift hle).1 hhas
    have := h.lt _ role hhas
    omega

end Badge

namespace Nfa

variable {nfa other whole : Nfa} {p i : Nat} {role : Role} {w : List Char}

theorem Sees.mono {B C : Badge → Prop} (h : nfa.Sees B p w) (hB : ∀ b, B b → C b) :
    nfa.Sees C p w := by
  obtain ⟨q, t, hq⟩ := h
  exact ⟨q, t, hB _ hq⟩

/-- The texts after which there is a state with a role for a group. -/
def showing (nfa : Nfa) (group : Nat) (role : Role) : Language Char :=
  {w | nfa.Sees (Badge.Shows group role) nfa.start w}

/-- The badges that texts lead to are clean, and so is that of the last state. -/
structure Clean (nfa : Nfa) : Prop where
  le_maxGroups : nfa.nextGroup ≤ maxGroups
  seen : ∀ w, ¬nfa.Sees (fun b => ¬b.Clean nfa.nextGroup) nfa.start w
  last : (nfa.state nfa.last).badge.Clean nfa.nextGroup

theorem Clean.badge (h : nfa.Clean) (t : Trail nfa.Edge nfa.start w p) :
    (nfa.state p).badge.Clean nfa.nextGroup :=
  not_not.1 fun hnot => h.seen w ⟨p, t, hnot⟩

theorem showing_of_le (h : nfa.Clean) (hi : nfa.nextGroup ≤ i) : nfa.showing i role = 0 := by
  ext w
  refine iff_of_false (fun hw => ?_) id
  obtain ⟨q, t, hq⟩ := hw
  have := (h.badge t).lt i role hq
  omega

/-- Moving the groups behind others moves what is shown. -/
theorem sees_shift (h : nfa.Clean) {offset : Nat} (hle : offset + nfa.nextGroup ≤ maxGroups) :
    nfa.Sees (fun b => (b.shift offset).Shows i role) nfa.start w ↔
      offset ≤ i ∧ w ∈ nfa.showing (i - offset) role := by
  constructor
  · intro hsees
    obtain ⟨q, t, hq⟩ := hsees
    obtain ⟨hi, hq⟩ := ((h.badge t).shows_shift hle).1 hq
    exact ⟨hi, q, t, hq⟩
  · intro hsees
    obtain ⟨hi, q, t, hq⟩ := hsees
    exact ⟨q, t, ((h.badge t).shows_shift hle).2 ⟨hi, hq⟩⟩

theorem not_sees_shift (h : nfa.Clean) {offset : Nat} (hle : offset + nfa.nextGroup ≤ maxGroups) :
    ¬nfa.Sees (fun b => ¬(b.shift offset).Clean (offset + nfa.nextGroup)) nfa.start w :=
  fun hsees => h.seen w (hsees.mono fun _ hnot hb => hnot (hb.shift hle))

/-! ## Starting with a character -/

/-- No silent edge leads on from the start. -/
def Direct (nfa : Nfa) : Prop :=
  ∀ q, ¬nfa.Edge nfa.start none q

/-- Nothing is reached without a character. -/
theorem Direct.eq_start (h : nfa.Direct) (t : Trail nfa.Edge nfa.start [] p) : p = nfa.start := by
  rcases (trail_nil_iff.1 t).cases_head with heq | ⟨q, e, -⟩
  · exact heq.symm
  · exact absurd e (h q)

theorem direct_oneStep {config : Config} {ts : List Transition} : (oneStep config ts).Direct := by
  intro q e
  obtain ⟨-, c, hc, -⟩ := edge_oneStep.1 e
  cases hc

theorem direct_charSet (config : Config) (ranges : List CharRange) (inverted : Bool) :
    (charSet config ranges inverted).Direct := by
  obtain ⟨ts, heq, -, -⟩ := charSet_eq config ranges inverted
  rw [heq]
  exact direct_oneStep

theorem direct_literal (config : Config) {s : String} (h : s.toList ≠ []) :
    (literal config s).Direct := by
  intro q e
  have heps : ((literal config s).state (literal config s).start).eps = [] := by
    refine (eps_spell (empty config) (empty config).start h _).trans ?_
    rw [state_empty]
  have hq : q ∈ ((literal config s).state (literal config s).start).eps := e
  rw [heps] at hq
  cases hq

theorem Direct.copy (h : nfa.Direct) (hn : nfa.WellFormed) : nfa.copy.Direct := by
  intro q e
  obtain ⟨r, e, -⟩ := ((embedding_copy hn).edge_iff (moved_start hn)).1 e
  exact h r e

theorem Direct.seq (h : nfa.Direct) (hn : nfa.WellFormed) (ho : other.WellFormed)
    (hwhole : nfa.seq other = .ok whole) : whole.Direct := by
  obtain ⟨both, s, t, htake, rfl⟩ := seq_eq_ok.1 hwhole
  have hb := (beside_of_takeIn hn ho htake).1
  intro q e
  have e : (both.join both.last s).Edge (both.join both.last s).start none q := e
  rw [start_join, hb.start_eq, hb.last_eq] at e
  rcases edge_join (hb.joinable hn.last_lt) e with e | ⟨heq, -⟩ | ⟨heq, -⟩
  · exact h q ((hb.edge_first hn.start_lt).1 e)
  · exact hn.start_ne_last heq
  · exact hn.start_ne_last heq

theorem Direct.sameGraph (h : nfa.Direct) (hsame : nfa.SameGraph whole) : whole.Direct := by
  intro q e
  rw [hsame.edge_iff, hsame.start_eq] at e
  exact h q e

theorem direct_allPrefixes (nfa : Nfa) : nfa.allPrefixes.Direct := by
  intro q e
  have hsize : ∀ g : Recognizer, ¬g.Edge g.size none q := fun g e => e
  rcases Recognizer.edge_toNfa.1 e with (e | ⟨hlt, -⟩) | ⟨-, e⟩
  · exact hsize _ e
  · exact Nat.lt_irrefl _ hlt
  · cases e

/-! ## What the operators make of it -/

theorem clean_of_blank (h : nfa.Blank) (hgroups : nfa.nextGroup = 0) : nfa.Clean := by
  refine ⟨hgroups.trans_le (Nat.zero_le _), fun w hsees => ?_, ?_⟩
  · obtain ⟨q, -, hq⟩ := hsees
    rw [h q] at hq
    exact hq (Badge.clean_blank _)
  · rw [h]
    exact Badge.clean_blank _

theorem clean_copy (hn : nfa.WellFormed) (h : nfa.Clean) : nfa.copy.Clean := by
  have hgroups : nfa.copy.nextGroup = 0 + nfa.nextGroup := (Nat.zero_add _).symm
  have hle : 0 + nfa.nextGroup ≤ maxGroups := by
    rw [Nat.zero_add]
    exact h.le_maxGroups
  have hlast : (nfa.copy.state nfa.copy.last).badge = (nfa.state nfa.last).badge.shift 0 :=
    (embedding_copy hn).badge_eq (moved_last hn)
  refine ⟨h.le_maxGroups, fun w => ?_, ?_⟩
  · rw [hgroups, sees_copy hn]
    exact not_sees_shift h hle
  · rw [hgroups, hlast]
    exact h.last.shift hle

theorem showing_copy (hn : nfa.WellFormed) (h : nfa.Clean) (i : Nat) (role : Role) :
    nfa.copy.showing i role = nfa.showing i role := by
  ext w
  refine (sees_copy hn).trans ((sees_shift h ?_).trans (and_iff_right (Nat.zero_le i)))
  rw [Nat.zero_add]
  exact h.le_maxGroups

/-- Two automata of which one has its groups behind those of the other. -/
theorem clean_of_sees (hc : nfa.Clean) (hco : other.Clean)
    (hgroups : whole.nextGroup = nfa.nextGroup + other.nextGroup)
    (hle : nfa.nextGroup + other.nextGroup ≤ maxGroups)
    (hsees : ∀ (B : Badge → Prop) w, ¬B Badge.blank → whole.Sees B whole.start w →
      nfa.Sees B nfa.start w ∨
        ∃ v, other.Sees (fun b => B (b.shift nfa.nextGroup)) other.start v)
    (hlast : (whole.state whole.last).badge.Clean whole.nextGroup) : whole.Clean := by
  refine ⟨hgroups ▸ hle, fun w h => ?_, hlast⟩
  rcases hsees _ w (fun hnot => hnot (Badge.clean_blank _)) h with h | ⟨v, h⟩
  · have hmono : ∀ b : Badge, b.Clean nfa.nextGroup → b.Clean whole.nextGroup :=
      fun b hb => hb.mono (hgroups ▸ Nat.le_add_right _ _)
    exact hc.seen w (h.mono fun b hnot hb => hnot (hmono b hb))
  · rw [hgroups] at h
    exact not_sees_shift hco hle h

section Binary

variable (hn : nfa.WellFormed) (ho : other.WellFormed)

section Seq

variable (h : nfa.seq other = .ok whole)

include hn ho h

theorem badge_last_seq : (whole.state whole.last).badge =
    (other.state other.last).badge.shift nfa.nextGroup := by
  obtain ⟨both, s, t, htake, rfl⟩ := seq_eq_ok.1 h
  have hb := (beside_of_takeIn hn ho htake).1
  show ((both.join both.last s).state t).badge = _
  rw [hb.last_eq]
  exact hb.badge_seq_last

theorem clean_seq (hc : nfa.Clean) (hco : other.Clean) : whole.Clean := by
  have hle := add_nextGroup_le_of_seq h
  have hgroups := nextGroup_seq h
  refine clean_of_sees hc hco hgroups hle (fun B w hblank hsees => ?_) ?_
  · exact ((sees_seq hn ho hblank h).1 hsees).imp id fun ⟨_, v, _, _, hv⟩ => ⟨v, hv⟩
  · rw [badge_last_seq hn ho h, hgroups]
    exact hco.last.shift hle

theorem mem_showing_seq (hco : other.Clean) :
    w ∈ whole.showing i role ↔ w ∈ nfa.showing i role ∨
      nfa.nextGroup ≤ i ∧ w ∈ nfa.language * other.showing (i - nfa.nextGroup) role := by
  refine (sees_seq hn ho Badge.not_shows_blank h).trans (or_congr Iff.rfl ?_)
  simp only [sees_shift hco (add_nextGroup_le_of_seq h)]
  constructor
  · intro hsees
    obtain ⟨u, v, rfl, hu, hi, hv⟩ := hsees
    exact ⟨hi, u, hu, v, hv, rfl⟩
  · intro hsees
    obtain ⟨hi, u, hu, v, hv, rfl⟩ := hsees
    exact ⟨u, v, rfl, hu, hi, hv⟩

theorem showing_seq_of_lt (hco : other.Clean) (hi : i < nfa.nextGroup) :
    whole.showing i = nfa.showing i := by
  ext role w
  rw [mem_showing_seq hn ho h hco]
  exact or_iff_left fun hw => Nat.not_le_of_lt hi hw.1

theorem showing_seq_of_le (hc : nfa.Clean) (hco : other.Clean) (hi : nfa.nextGroup ≤ i) :
    whole.showing i = fun role => nfa.language * other.showing (i - nfa.nextGroup) role := by
  ext role w
  rw [mem_showing_seq hn ho h hco, showing_of_le hc hi, and_iff_right hi]
  exact or_iff_right id

end Seq

section Or

variable (h : nfa.or other = .ok whole)

include hn ho h

theorem badge_last_or : (whole.state whole.last).badge = Badge.blank := by
  obtain ⟨-, joined, -, t, -, -, hl, -⟩ := exists_joined_of_or hn ho h
  exact hl.badge_last

theorem clean_or (hc : nfa.Clean) (hco : other.Clean) : whole.Clean := by
  refine clean_of_sees hc hco (nextGroup_or h) (add_nextGroup_le_of_or h)
    (fun B w hblank hsees => ?_) ?_
  · exact ((sees_or hn ho hblank h).1 hsees).imp id fun hv => ⟨w, hv⟩
  · rw [badge_last_or hn ho h]
    exact Badge.clean_blank _

theorem mem_showing_or (hco : other.Clean) :
    w ∈ whole.showing i role ↔ w ∈ nfa.showing i role ∨
      nfa.nextGroup ≤ i ∧ w ∈ other.showing (i - nfa.nextGroup) role :=
  (sees_or hn ho Badge.not_shows_blank h).trans
    (or_congr Iff.rfl (sees_shift hco (add_nextGroup_le_of_or h)))

theorem showing_or_of_lt (hco : other.Clean) (hi : i < nfa.nextGroup) :
    whole.showing i = nfa.showing i := by
  ext role w
  rw [mem_showing_or hn ho h hco]
  exact or_iff_left fun hw => Nat.not_le_of_lt hi hw.1

theorem showing_or_of_le (hc : nfa.Clean) (hco : other.Clean) (hi : nfa.nextGroup ≤ i) :
    whole.showing i = other.showing (i - nfa.nextGroup) := by
  ext role w
  rw [mem_showing_or hn ho h hco, showing_of_le hc hi, and_iff_right hi]
  exact or_iff_right id

end Or

end Binary

section Unary

variable (hn : nfa.WellFormed)

include hn

theorem clean_loop (hc : nfa.Clean) (skip : Bool) : (nfa.loop skip).Clean := by
  refine ⟨hc.le_maxGroups, fun w hsees => ?_, ?_⟩
  · obtain ⟨u, v, -, -, hv⟩ := (sees_loop hn skip fun hnot => hnot (Badge.clean_blank _)).1 hsees
    exact hc.seen v hv
  · rw [badge_loop_last hn]
    exact Badge.clean_blank _

theorem showing_loop (skip : Bool) :
    (nfa.loop skip).showing i role = nfa.language∗ * nfa.showing i role := by
  ext w
  refine (sees_loop hn skip Badge.not_shows_blank).trans ?_
  constructor
  · intro hsees
    obtain ⟨u, v, rfl, hu, hv⟩ := hsees
    exact ⟨u, hu, v, hv, rfl⟩
  · intro hsees
    obtain ⟨u, hu, v, hv, rfl⟩ := hsees
    exact ⟨u, v, rfl, hu, hv⟩

omit hn in
theorem badge_last_optional :
    (nfa.optional.state nfa.optional.last).badge = (nfa.state nfa.last).badge :=
  badge_link nfa.start nfa.last nfa.last

theorem clean_optional (hc : nfa.Clean) : nfa.optional.Clean := by
  refine ⟨hc.le_maxGroups, fun w hsees => ?_, ?_⟩
  · rcases (sees_optional hn).1 hsees with hsees | ⟨-, hlast⟩
    · exact hc.seen w hsees
    · exact hlast hc.last
  · rw [badge_last_optional]
    exact hc.last

theorem mem_showing_optional : w ∈ nfa.optional.showing i role ↔
    w ∈ nfa.showing i role ∨ w = [] ∧ (nfa.state nfa.last).badge.Shows i role :=
  sees_optional hn

end Unary

section Group

variable (hn : nfa.WellFormed) (h : nfa.markGroup = .ok whole)

include hn h

theorem shows_markGroup : (whole.state p).badge.Shows i role ↔
    (i = nfa.nextGroup ∧ nfa.OnPath p ∧ (nfa.roleOf nfa.nextGroup p).has role = true) ∨
      (nfa.state p).badge.Shows i role :=
  has_markGroup hn h

theorem clean_badge_markGroup (hp : (nfa.state p).badge.Clean nfa.nextGroup) :
    (whole.state p).badge.Clean whole.nextGroup := by
  obtain ⟨hgroups, -⟩ := nextGroup_markGroup h
  refine ⟨sound_markGroup hn h hp.sound, fun a i role hhas => ?_, fun i role hhas => ?_⟩
  · exact hp.unbound a i role ((has_markGroup_some hn h).1 hhas)
  · rcases (shows_markGroup hn h).1 hhas with ⟨rfl, -⟩ | hhas
    · omega
    · have := hp.lt i role hhas
      omega

theorem clean_markGroup (hc : nfa.Clean) : whole.Clean := by
  obtain ⟨hgroups, hlt⟩ := nextGroup_markGroup h
  have hsame := sameGraph_markGroup h
  refine ⟨by omega, fun w hsees => ?_, ?_⟩
  · obtain ⟨q, t, hq⟩ := hsees
    rw [hsame.start_eq, hsame.trail_iff] at t
    exact hq (clean_badge_markGroup hn h (hc.badge t))
  · rw [hsame.last_eq]
    exact clean_badge_markGroup hn h hc.last

/-- The groups that there were are shown as before. -/
theorem showing_markGroup_of_lt (hi : i < nfa.nextGroup) :
    whole.showing i role = nfa.showing i role := by
  have hsame := sameGraph_markGroup h
  ext w
  refine exists_congr fun q => ?_
  rw [hsame.start_eq, hsame.trail_iff, shows_markGroup hn h,
    or_iff_right fun hnew => Nat.ne_of_lt hi hnew.1]

/-- The new group is shown by the states on paths. -/
theorem mem_showing_markGroup (hc : nfa.Clean) : w ∈ whole.showing nfa.nextGroup role ↔
    ∃ q, Trail nfa.Edge nfa.start w q ∧ nfa.OnPath q ∧
      (nfa.roleOf nfa.nextGroup q).has role = true := by
  have hsame := sameGraph_markGroup h
  refine exists_congr fun q => ?_
  rw [hsame.start_eq, hsame.trail_iff]
  apply and_congr_right
  intro t
  rw [shows_markGroup hn h, and_iff_right rfl, or_iff_left]
  intro hold
  have := (hc.badge t).lt _ role hold
  omega

/-- The start role is that of the start, where only the empty text leads. -/
theorem mem_showing_markGroup_start (hc : nfa.Clean) :
    w ∈ whole.showing nfa.nextGroup .start ↔ w = [] ∧ ∃ v, v ∈ nfa.language := by
  rw [mem_showing_markGroup hn h hc]
  constructor
  · intro hshows
    obtain ⟨q, t, hq, hrole⟩ := hshows
    obtain rfl := start_of_roleOf hrole
    exact ⟨(hn.trail_start.1 t).1, hq.2⟩
  · intro hshows
    obtain ⟨rfl, v, hv⟩ := hshows
    exact ⟨nfa.start, .nil _, ⟨⟨[], .nil _⟩, v, hv⟩, by simp [roleOf, Marker.starting, Marker.has]⟩

end Group

end Nfa

end LongestMatch
