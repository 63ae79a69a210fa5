import LongestMatch.Proofs.Embedding

/-!
# Sequences and alternatives

Two automata side by side are put together by a join of the first one's last state and the second
one's start (`Nfa.seq`), or of the two starts and the two last states (`Nfa.or`). No edge leads from
the second one back into the first, so each path goes through such a join once: the texts and
badges of the result are those of the operands, and no action or group leaks from one operand into
texts of the other.
-/

namespace LongestMatch

namespace Nfa

variable {nfa other both : Nfa} {p q r s t : Nat} {l : Option Char} {w : List Char}
  {B : Badge → Prop}

/-! ## Joins with the start of the second automaton -/

/-- No trail leads from the second automaton back into the first. -/
theorem Beside.no_way_back (h : nfa.Beside other both s t) (hp : p < nfa.states.size)
    (v : List Char) : ¬Trail both.Edge s v p := by
  intro t
  have := h.trail_second h.base_le_s t
  omega

theorem Beside.joinable (h : nfa.Beside other both s t) (hp : p < nfa.states.size) :
    both.Joinable p s := by
  have := h.base_le_s
  have := h.size_le
  exact ⟨by omega, h.s_lt, by omega, fun _ _ => h.no_edge_s⟩

section Join

variable {source : Nat} (h : nfa.Beside other both s t) (hsource : source < nfa.states.size)

include h hsource

theorem Beside.edge_lt_join (e : (both.join source s).Edge p l q) : q < both.states.size := by
  rcases edge_join (h.joinable hsource) e with e | ⟨-, e⟩ | ⟨-, -, rfl⟩
  · exact h.edge_lt e
  · exact h.edge_lt e
  · exact h.s_lt

theorem Beside.no_edge_start_join : ¬(both.join source s).Edge p l nfa.start := by
  intro e
  rcases edge_join (h.joinable hsource) e with e | ⟨-, e⟩ | ⟨-, -, heq⟩
  · exact h.no_edge_start e
  · exact h.no_edge_start e
  · have := h.first.start_lt
    have := h.base_le_s
    omega

theorem Beside.sorted_join (p : Nat) :
    Transition.Sorted ((both.join source s).state p).trans := by
  rcases trans_join (h.joinable hsource) p with htrans | htrans | htrans
  · exact htrans ▸ h.sorted p
  · exact htrans ▸ h.sorted s
  · exact htrans ▸ Transition.sorted_nil

end Join

/-! ## Sequence -/

/-- The second automaton begins where the first one ends. -/
theorem Beside.trail_seq (h : nfa.Beside other both s t) :
    Trail (both.join nfa.last s).Edge nfa.start w t ↔
      ∃ u v, w = u ++ v ∧ u ∈ nfa.language ∧ v ∈ other.language := by
  have hstart := h.first.start_lt
  have hlast := h.first.last_lt
  have hj := h.joinable hlast
  have hs := h.base_le_s
  have ht := h.base_le_t
  rw [trail_join hj (by omega) (Ne.symm h.s_ne_t),
    trail_link (fun p l q => edge_link hj.source_lt) (h.no_way_back hlast), h.trail_first hstart]
  -- the first automaton alone does not lead to the last state of the second
  refine (or_iff_right fun hfirst => ?_).trans (exists_congr fun u => exists_congr fun v => ?_)
  · have := h.first.trail_lt hfirst hstart
    omega
  · rw [h.trail_first hstart, h.trail_s_t]
    rfl

theorem Beside.sees_seq (h : nfa.Beside other both s t) (hblank : ¬B Badge.blank) :
    (both.join nfa.last s).Sees B nfa.start w ↔ nfa.Sees B nfa.start w ∨
      ∃ u v, w = u ++ v ∧ u ∈ nfa.language ∧
        other.Sees (fun b => B (b.shift nfa.nextGroup)) other.start v := by
  have hstart := h.first.start_lt
  have hlast := h.first.last_lt
  have hj := h.joinable hlast
  have hs := h.base_le_s
  rw [sees_join hj hblank (by omega), sees_link hj.source_lt (h.no_way_back hlast),
    h.sees_first hstart]
  refine or_congr Iff.rfl (exists_congr fun u => exists_congr fun v => ?_)
  rw [h.trail_first hstart, h.sees_s]
  rfl

/-- The last state of a sequence carries what that of the second automaton does. -/
theorem Beside.badge_seq_last (h : nfa.Beside other both s t) :
    ((both.join nfa.last s).state t).badge =
      (other.state other.last).badge.shift nfa.nextGroup := by
  have hlast := h.first.last_lt
  have ht := h.base_le_t
  rw [state_join_of_ne (h.joinable hlast) (by omega) (Ne.symm h.s_ne_t), h.t_eq,
    h.embedding.badge_eq (moved_last h.second)]

theorem Beside.wellFormed_seq (h : nfa.Beside other both s t) :
    WellFormed { both.join nfa.last s with last := t } := by
  have hlast := h.first.last_lt
  have hstart := h.first.start_lt
  have hs := h.base_le_s
  have ht := h.base_le_t
  have hsize := h.size_le
  have hj := h.joinable hlast
  refine ⟨?_, ?_, ?_, fun p l q e => ?_, fun p l e => ?_, fun l q e => ?_, ?_, fun p => ?_⟩
  · show (both.join nfa.last s).start < (both.join nfa.last s).states.size
    rw [start_join, size_join, h.start_eq]
    omega
  · show t < (both.join nfa.last s).states.size
    rw [size_join]
    exact h.t_lt
  · show (both.join nfa.last s).start ≠ t
    rw [start_join, h.start_eq]
    omega
  · show q < (both.join nfa.last s).states.size
    rw [size_join]
    exact h.edge_lt_join hlast e
  · replace e : (both.join nfa.last s).Edge p l (both.join nfa.last s).start := e
    rw [start_join, h.start_eq] at e
    exact h.no_edge_start_join hlast e
  · -- only the state joined with has new edges, and it is not the last one now
    have htlast : t ≠ nfa.last := by omega
    rcases edge_join hj e with e | ⟨heq, -⟩ | ⟨heq, -⟩
    · exact h.no_edge_t e
    · exact htlast heq
    · exact htlast heq
  · show ((both.join nfa.last s).state (both.join nfa.last s).start).action = none
    rw [start_join, h.start_eq, state_join_of_ne hj h.first.start_ne_last (by omega),
      h.state_first _ hstart, h.first.action_start]
  · exact h.sorted_join hlast p

/-! ## Alternatives: one start for two -/

/-- The states behind the two starts: neither of them, and none that is still to come. -/
structure Behind (nfa both : Nfa) (s p : Nat) : Prop where
  ne_start : p ≠ nfa.start
  ne_s : p ≠ s
  ne_size : p ≠ both.states.size

theorem Beside.behind_last (h : nfa.Beside other both s t) : nfa.Behind both s nfa.last := by
  have hlast := h.first.last_lt
  have hs := h.base_le_s
  have hsize := h.size_le
  exact ⟨Ne.symm h.first.start_ne_last, by omega, by omega⟩

theorem Beside.behind_t (h : nfa.Beside other both s t) : nfa.Behind both s t := by
  have hstart := h.first.start_lt
  have ht := h.base_le_t
  have htlt := h.t_lt
  exact ⟨by omega, Ne.symm h.s_ne_t, by omega⟩

/-- What the first half of an alternative comes to: one start from which both automata are read, and
the states behind the two starts as they were. -/
structure StartsJoined (nfa both whole : Nfa) (s t : Nat) : Prop where
  start_lt : whole.start < whole.states.size
  t_lt : t < whole.states.size
  start_ne_last : whole.start ≠ whole.last
  start_ne_t : whole.start ≠ t
  last_eq : whole.last = nfa.last
  start_not_behind : ¬nfa.Behind both s whole.start
  state_eq : ∀ p, nfa.Behind both s p → whole.state p = both.state p
  action_eq : ∀ p, ¬nfa.Behind both s p → (whole.state p).action = none
  edge_lt : ∀ p l q, whole.Edge p l q → q < whole.states.size
  no_edge_start : ∀ p l, ¬whole.Edge p l whole.start
  sorted : ∀ p, Transition.Sorted (whole.state p).trans
  trail_iff : ∀ w r, nfa.Behind both s r → (Trail whole.Edge whole.start w r ↔
    Trail both.Edge nfa.start w r ∨ Trail both.Edge s w r)
  sees_iff : ∀ (B : Badge → Prop) w, ¬B Badge.blank →
    (whole.Sees B whole.start w ↔ both.Sees B nfa.start w ∨ both.Sees B s w)

section JoinStarts

variable (h : nfa.Beside other both s t)

include h

/-- The start is not entered again, so what is read through it is read from it. -/
theorem Beside.through_start {P : List Char → Prop} :
    (∃ u v, w = u ++ v ∧ Trail both.Edge nfa.start u nfa.start ∧ P v) ↔ P w := by
  constructor
  · intro h'
    obtain ⟨u, v, rfl, hu, hv⟩ := h'
    obtain ⟨rfl, -⟩ := hu.eq_of_no_edge_into fun _ _ => h.no_edge_start
    exact hv
  · intro hw
    exact ⟨[], w, rfl, .nil _, hw⟩

theorem Beside.action_start : (both.state nfa.start).action = none := by
  rw [h.state_first _ h.first.start_lt, h.first.action_start]

/-- Before the starts are joined, only states behind them have actions. -/
theorem Beside.action_eq_none (hp : ¬nfa.Behind both s p) : (both.state p).action = none := by
  by_contra hne
  refine hp ⟨?_, ?_, ?_⟩
  · rintro rfl
    exact hne h.action_start
  · rintro rfl
    exact hne h.action_s
  · rintro rfl
    exact hne (by rw [state_of_size_le (Nat.le_refl _)])

/-- Neither of two starts that are joined has an action afterwards. -/
theorem Beside.action_join_eq_none (hp : ¬nfa.Behind both s p) :
    ((both.join nfa.start s).state p).action = none := by
  have hnone := h.action_eq_none hp
  rcases join_states (h.joinable h.first.start_lt) with
    ⟨-, hsource, hgoal, hother⟩ | ⟨-, hsource, hgoal, hother⟩ | hlink
  · rcases eq_or_ne p nfa.start with rfl | hps
    · rw [hsource]
      exact hnone
    · rcases eq_or_ne p s with rfl | hpg
      · rw [hgoal]
        exact hnone
      · rw [hother p hps hpg, hnone]
  · rcases eq_or_ne p nfa.start with rfl | hps
    · rw [hsource, h.action_s]
    · rcases eq_or_ne p s with rfl | hpg
      · rw [hgoal]
      · rw [hother p hps hpg, hnone]
  · rw [hlink, action_link, hnone]

/-- The first start serves for both. -/
theorem Beside.startsJoined_join : nfa.StartsJoined both (both.join nfa.start s) s t := by
  have hstart := h.first.start_lt
  have hlast := h.first.last_lt
  have hs := h.base_le_s
  have ht := h.base_le_t
  have hne := h.first.start_ne_last
  have hj := h.joinable hstart
  have hback := h.no_way_back hstart
  have hsize : (both.join nfa.start s).states.size = both.states.size := size_join nfa.start s
  have hentry : (both.join nfa.start s).start = nfa.start := by rw [start_join, h.start_eq]
  have hend : (both.join nfa.start s).last = nfa.last := by rw [last_join, h.last_eq]
  refine ⟨?_, hsize ▸ h.t_lt, ?_, ?_, hend, fun hbehind => hbehind.ne_start hentry,
    fun p hp => state_join_of_ne hj hp.ne_start hp.ne_s, fun p hp => h.action_join_eq_none hp,
    fun p l q e => hsize ▸ h.edge_lt_join hstart e, fun p l => ?_, h.sorted_join hstart,
    fun w r hr => ?_, fun B w hblank => ?_⟩
  · rw [hentry, hsize]
    exact hj.source_lt
  · rw [hentry, hend]
    exact hne
  · rw [hentry]
    omega
  · rw [hentry]
    exact h.no_edge_start_join hstart
  · rw [hentry, trail_join hj (by omega) hr.ne_s,
      trail_link (fun p l q => edge_link hj.source_lt) hback, h.through_start]
  · rw [hentry, sees_join hj hblank (by omega), sees_link hj.source_lt hback, h.through_start]

end JoinStarts

section PushStart

variable {whole : Nfa} (h : nfa.Beside other both s t)
  (hstates : whole.states = both.states.push { eps := [nfa.start, s] })

include hstates

theorem state_push_start : whole.state both.states.size = { eps := [nfa.start, s] } := by
  rw [state_push hstates, if_pos rfl]

theorem edge_push_start {l : Option Char} {q : Nat} :
    whole.Edge both.states.size l q ↔ l = none ∧ (q = nfa.start ∨ q = s) := by
  rw [Edge, state_push_start hstates, edge_of_eps]
  simp

theorem edge_cases_push_start (e : whole.Edge p l q) :
    both.Edge p l q ∨ q = nfa.start ∨ q = s := by
  rcases (edge_push hstates).1 e with hold | ⟨rfl, -⟩
  · exact .inl hold
  · exact .inr ((edge_push_start hstates).1 e).2

include h

theorem Beside.trail_push_start (hr : r ≠ both.states.size) :
    Trail whole.Edge both.states.size w r ↔
      Trail both.Edge nfa.start w r ∨ Trail both.Edge s w r := by
  have hstart := Nat.lt_of_lt_of_le h.first.start_lt h.size_le
  have hlt : ∀ p l q, both.Edge p l q → q < both.states.size := fun _ _ _ => h.edge_lt
  rw [trail_of_silent fun l q => edge_push_start hstates, ← trail_push hstates hlt hstart,
    ← trail_push hstates hlt h.s_lt]
  simp [hr]

theorem Beside.sees_push_start (hblank : ¬B Badge.blank) : whole.Sees B both.states.size w ↔
    both.Sees B nfa.start w ∨ both.Sees B s w := by
  have hstart := Nat.lt_of_lt_of_le h.first.start_lt h.size_le
  have hlt : ∀ p l q, both.Edge p l q → q < both.states.size := fun _ _ _ => h.edge_lt
  have hentry : ∀ r, Trail whole.Edge both.states.size w r ↔ (w = [] ∧ r = both.states.size) ∨
      ∃ q, (q = nfa.start ∨ q = s) ∧ Trail whole.Edge q w r :=
    fun r => trail_of_silent fun l q => edge_push_start hstates
  rw [← sees_push hstates hlt hstart, ← sees_push hstates hlt h.s_lt]
  constructor
  · intro h'
    obtain ⟨q, ht, hb⟩ := h'
    rcases (hentry q).1 ht with ⟨-, rfl⟩ | ⟨p, rfl | rfl, ht⟩
    · -- the new start carries nothing
      rw [state_push_start hstates] at hb
      exact absurd hb hblank
    · exact .inl ⟨q, ht, hb⟩
    · exact .inr ⟨q, ht, hb⟩
  · intro hcases
    rcases hcases with ⟨q, ht, hb⟩ | ⟨q, ht, hb⟩
    · exact ⟨q, (hentry q).2 (.inr ⟨_, .inl rfl, ht⟩), hb⟩
    · exact ⟨q, (hentry q).2 (.inr ⟨_, .inr rfl, ht⟩), hb⟩

/-- A new start leads to both. -/
theorem Beside.startsJoined_push (hstart : whole.start = both.states.size)
    (hlast : whole.last = both.last) : nfa.StartsJoined both whole s t := by
  have hstart_lt := Nat.lt_of_lt_of_le h.first.start_lt h.size_le
  have hlast_lt := Nat.lt_of_lt_of_le h.first.last_lt h.size_le
  have hs := h.s_lt
  have ht := h.t_lt
  have hend : whole.last = nfa.last := hlast.trans h.last_eq
  have hsize : whole.states.size = both.states.size + 1 := by rw [hstates, Array.size_push]
  have hold : ∀ p, p ≠ both.states.size → whole.state p = both.state p := by
    intro p hp
    rw [state_push hstates, if_neg hp]
  refine ⟨by omega, by omega, by omega, by omega, hend, fun hbehind => hbehind.ne_size hstart,
    fun p hp => hold p hp.ne_size, fun p hp => ?_, fun p l q e => ?_, fun p l e => ?_, fun p => ?_,
    fun w r hr => ?_, fun B w hblank => ?_⟩
  · rcases eq_or_ne p both.states.size with rfl | hne
    · rw [state_push_start hstates]
    · rw [hold p hne, h.action_eq_none hp]
  · rcases edge_cases_push_start hstates e with e | rfl | rfl
    · have := h.edge_lt e
      omega
    · omega
    · omega
  · rw [hstart] at e
    rcases edge_cases_push_start hstates e with e | heq | heq
    · exact absurd (h.edge_lt e) (Nat.lt_irrefl _)
    · omega
    · omega
  · rcases eq_or_ne p both.states.size with rfl | hp
    · rw [state_push_start hstates]
      exact Transition.sorted_nil
    · rw [hold p hp]
      exact h.sorted p
  · rw [hstart, h.trail_push_start hstates hr.ne_size]
  · rw [hstart, h.sees_push_start hstates hblank]

end PushStart

theorem Beside.startsJoined (h : nfa.Beside other both s t) :
    nfa.StartsJoined both (both.joinStarts s) s t := by
  unfold joinStarts
  rw [h.start_eq]
  split
  · exact h.startsJoined_join
  · exact h.startsJoined_push rfl rfl rfl

/-! ## Alternatives: one last state for two -/

/-- Two last states: nothing leads on from either. -/
structure TwoLasts (nfa : Nfa) (t : Nat) : Prop where
  last_lt : nfa.last < nfa.states.size
  t_lt : t < nfa.states.size
  ne : nfa.last ≠ t
  no_edge_last : ∀ l q, ¬nfa.Edge nfa.last l q
  no_edge_t : ∀ l q, ¬nfa.Edge t l q
  edge_lt : ∀ p l q, nfa.Edge p l q → q < nfa.states.size

/-- What the second half of an alternative comes to: the last state is reached wherever one of the
two was, and nothing else changes. -/
structure LastsJoined (nfa whole : Nfa) (t : Nat) : Prop where
  size_le : nfa.states.size ≤ whole.states.size
  start_eq : whole.start = nfa.start
  last_lt : whole.last < whole.states.size
  last_cases : whole.last = nfa.last ∨ whole.last = t ∨ whole.last = nfa.states.size
  no_edge_last : ∀ l q, ¬whole.Edge whole.last l q
  edge_cases : ∀ p l q, whole.Edge p l q → nfa.Edge p l q ∨ q = whole.last
  trans_eq : ∀ p, (whole.state p).trans = (nfa.state p).trans
  badge_eq : ∀ p, (whole.state p).badge = (nfa.state p).badge
  badge_last : (whole.state whole.last).badge = Badge.blank
  trail_last : ∀ p w, p < nfa.states.size → (Trail whole.Edge p w whole.last ↔
    Trail nfa.Edge p w nfa.last ∨ Trail nfa.Edge p w t)
  trail_iff : ∀ p w q, (whole.state q).badge ≠ Badge.blank →
    (Trail whole.Edge p w q ↔ Trail nfa.Edge p w q)

/-- With a silent edge from `x` to `y`, a state without edges that carries nothing, `y` is reached
wherever `x` is, and nothing else changes. -/
structure Led (nfa whole : Nfa) (x y : Nat) : Prop where
  size_eq : whole.states.size = nfa.states.size
  no_edge : ∀ l q, ¬whole.Edge y l q
  edge_cases : ∀ p l q, whole.Edge p l q → nfa.Edge p l q ∨ q = y
  trans_eq : ∀ p, (whole.state p).trans = (nfa.state p).trans
  badge_eq : ∀ p, (whole.state p).badge = (nfa.state p).badge
  badge_y : (whole.state y).badge = Badge.blank
  trail_iff : ∀ p w q, Trail whole.Edge p w q ↔
    Trail nfa.Edge p w q ∨ q = y ∧ Trail nfa.Edge p w x

theorem Led.trail_iff_of_ne {x y : Nat} {whole : Nfa} (h : nfa.Led whole x y)
    (hq : (whole.state q).badge ≠ Badge.blank) :
    Trail whole.Edge p w q ↔ Trail nfa.Edge p w q := by
  rw [h.trail_iff]
  apply or_iff_left
  rintro ⟨rfl, -⟩
  exact hq h.badge_y

/-- Where a badge counts, nothing changes. -/
theorem LastsJoined.sees_iff {whole : Nfa} (h : nfa.LastsJoined whole t) (hblank : ¬B Badge.blank) :
    whole.Sees B p w ↔ nfa.Sees B p w := by
  apply exists_congr
  intro q
  rw [and_congr_left_iff.2 fun hb => h.trail_iff p w q fun heq => hblank (heq ▸ hb), h.badge_eq]

theorem led_link {x y : Nat} (hx : x < nfa.states.size) (hxy : x ≠ y)
    (hno : ∀ l q, ¬nfa.Edge y l q) (hy : (nfa.state y).badge = Badge.blank) :
    nfa.Led (nfa.link x y) x y := by
  refine ⟨by rw [link, size_modify], fun l q e => ?_, fun p l q e => ?_, trans_link x y,
    badge_link x y, (badge_link x y y).trans hy,
    fun p w q => trail_link_terminal (fun p l q => edge_link hx) hxy hno⟩
  · rcases (edge_link hx).1 e with e | ⟨heq, -⟩
    · exact hno l q e
    · exact hxy heq.symm
  · rcases (edge_link hx).1 e with e | ⟨-, -, rfl⟩
    · exact .inl e
    · exact .inr rfl

theorem badge_of_isNeutral {s : State} (h : s.isNeutral = true) : s.badge = Badge.blank := by
  rw [State.isNeutral, Bool.and_eq_true, Option.isNone_iff_eq_none] at h
  exact State.badge_eq_blank h.1 h.2

section PushLast

variable (h : nfa.TwoLasts t) {grown : Nfa} (hstates : grown.states = nfa.states.push {})

include h hstates

/-- Both last states lead to a new one: two links, and nothing leads on from there. -/
theorem TwoLasts.led_push :
    grown.Led (grown.link nfa.last nfa.states.size) nfa.last nfa.states.size ∧
      (grown.link nfa.last nfa.states.size).Led
        ((grown.link nfa.last nfa.states.size).link t nfa.states.size) t nfa.states.size := by
  have hsize : grown.states.size = nfa.states.size + 1 := by rw [hstates, Array.size_push]
  have hlast := h.last_lt
  have ht := h.t_lt
  have hno : ∀ l q, ¬grown.Edge nfa.states.size l q := fun l q e =>
    absurd ((edge_push_empty hstates _ _ _).1 e).lt_size (Nat.lt_irrefl _)
  have hblank : (grown.state nfa.states.size).badge = Badge.blank := by
    rw [state_push_empty hstates, state_of_size_le (Nat.le_refl _)]
    rfl
  have hfirst : grown.Led (grown.link nfa.last nfa.states.size) nfa.last nfa.states.size :=
    led_link (by omega) (by omega) hno hblank
  refine ⟨hfirst, led_link ?_ (by omega) hfirst.no_edge hfirst.badge_y⟩
  rw [hfirst.size_eq]
  omega

/-- If both last states keep what they carry, a new state comes after both. -/
theorem TwoLasts.lastsJoined_push (hstart : grown.start = nfa.start) :
    nfa.LastsJoined { (grown.link nfa.last nfa.states.size).link t nfa.states.size with
      last := nfa.states.size } t := by
  obtain ⟨h₁, h₂⟩ := h.led_push hstates
  have htrail : ∀ p w q, Trail grown.Edge p w q ↔ Trail nfa.Edge p w q :=
    fun p w q => trail_congr (edge_push_empty hstates)
  have hstate := state_push_empty hstates
  have hsize : ((grown.link nfa.last nfa.states.size).link t nfa.states.size).states.size =
      nfa.states.size + 1 := by rw [h₂.size_eq, h₁.size_eq, hstates, Array.size_push]
  refine ⟨?_, hstart, ?_, .inr (.inr rfl), h₂.no_edge, fun p l q e => ?_, fun p => ?_, fun p => ?_,
    h₂.badge_y, fun p w hp => ?_, fun p w q hq => ?_⟩
  · show nfa.states.size ≤ Array.size _
    rw [hsize]
    exact Nat.le_succ _
  · show nfa.states.size < Array.size _
    rw [hsize]
    exact Nat.lt_succ_self _
  · rcases h₂.edge_cases p l q e with e | rfl
    · rcases h₁.edge_cases p l q e with e | rfl
      · exact .inl ((edge_push_empty hstates p l q).1 e)
      · exact .inr rfl
    · exact .inr rfl
  · exact (h₂.trans_eq p).trans ((h₁.trans_eq p).trans (by rw [hstate]))
  · exact (h₂.badge_eq p).trans ((h₁.badge_eq p).trans (by rw [hstate]))
  · apply (h₂.trail_iff p w _).trans
    rw [h₁.trail_iff, h₁.trail_iff, htrail, htrail, htrail]
    -- the new state was not reached before
    have hfresh : ¬Trail nfa.Edge p w nfa.states.size := by
      intro t
      exact absurd (t.invariant (P := fun q => q < nfa.states.size)
        (fun p l q _ e => h.edge_lt p l q e) hp) (Nat.lt_irrefl _)
    have hne : t ≠ nfa.states.size := Nat.ne_of_lt h.t_lt
    simp [hfresh, hne]
  · refine (h₂.trail_iff_of_ne hq).trans ((h₁.trail_iff_of_ne ?_).trans (htrail p w q))
    exact (h₂.badge_eq q).symm.trans_ne hq

end PushLast

theorem Led.lastsJoined {x y : Nat} {whole : Nfa} (h : nfa.Led whole x y)
    (hxy : x = nfa.last ∧ y = t ∨ x = t ∧ y = nfa.last) (hstart : whole.start = nfa.start)
    (hlast : whole.last = y) (hy : y < nfa.states.size) : nfa.LastsJoined whole t := by
  subst hlast
  refine ⟨h.size_eq.ge, hstart, h.size_eq ▸ hy, ?_, h.no_edge, h.edge_cases, h.trans_eq,
    h.badge_eq, h.badge_y, fun p w _ => ?_, fun p w q hq => h.trail_iff_of_ne hq⟩
  · rcases hxy with ⟨-, hy⟩ | ⟨-, hy⟩
    · exact .inr (.inl hy)
    · exact .inl hy
  · rw [h.trail_iff]
    rcases hxy with ⟨rfl, hy⟩ | ⟨rfl, hy⟩
    · rw [hy]
      simp [or_comm]
    · rw [hy]
      simp

theorem TwoLasts.lastsJoined (h : nfa.TwoLasts t) : nfa.LastsJoined (nfa.joinLasts t) t := by
  unfold joinLasts
  split
  · next hneutral =>
    exact (led_link h.t_lt (Ne.symm h.ne) h.no_edge_last (badge_of_isNeutral hneutral)).lastsJoined
      (.inr ⟨rfl, rfl⟩) rfl rfl h.last_lt
  · split
    · next hneutral =>
      have hled := led_link h.last_lt h.ne h.no_edge_t (badge_of_isNeutral hneutral)
      have hled : nfa.Led { nfa.link nfa.last t with last := t } nfa.last t :=
        ⟨hled.1, hled.2, hled.3, hled.4, hled.5, hled.6, hled.7⟩
      exact hled.lastsJoined (.inl ⟨rfl, rfl⟩) rfl rfl h.t_lt
    · exact h.lastsJoined_push rfl rfl

/-! ## Alternatives -/

theorem StartsJoined.twoLasts {whole : Nfa} (h : nfa.Beside other both s t)
    (hs : nfa.StartsJoined both whole s t) : whole.TwoLasts t := by
  have hlast := h.first.last_lt
  have ht := h.base_le_t
  have htlt := hs.t_lt
  refine ⟨?_, htlt, ?_, fun l q e => ?_, fun l q e => ?_, hs.edge_lt⟩
  · rw [hs.last_eq]
    omega
  · rw [hs.last_eq]
    omega
  · rw [hs.last_eq, Edge, hs.state_eq _ h.behind_last] at e
    exact h.no_edge_last e
  · rw [Edge, hs.state_eq _ h.behind_t] at e
    exact h.no_edge_t e

section Or

variable {whole : Nfa} (h : nfa.Beside other both s t) (hs : nfa.StartsJoined both whole s t)
  (hl : whole.LastsJoined (whole.joinLasts t) t)

include h hs hl

theorem Beside.language_or :
    w ∈ (whole.joinLasts t).language ↔ w ∈ nfa.language ∨ w ∈ other.language := by
  have hstart := h.first.start_lt
  have hlast := h.first.last_lt
  have ht := h.base_le_t
  have hfirst : Trail both.Edge nfa.start w nfa.last ↔ w ∈ nfa.language := h.trail_first hstart
  have hsecond : Trail both.Edge s w t ↔ w ∈ other.language := h.trail_s_t
  -- no text leads from one automaton to the last state of the other
  have hcross : ¬Trail both.Edge nfa.start w t := by
    intro hcross
    have := h.first.trail_lt ((h.trail_first hstart).1 hcross) hstart
    omega
  have hcross' : ¬Trail both.Edge s w nfa.last := h.no_way_back hlast w
  rw [mem_language, hl.start_eq, hl.trail_last _ _ hs.start_lt, hs.last_eq,
    hs.trail_iff w _ h.behind_last, hs.trail_iff w _ h.behind_t, hfirst, hsecond]
  simp [hcross, hcross']

theorem Beside.sees_or (hblank : ¬B Badge.blank) :
    (whole.joinLasts t).Sees B (whole.joinLasts t).start w ↔ nfa.Sees B nfa.start w ∨
      other.Sees (fun b => B (b.shift nfa.nextGroup)) other.start w := by
  rw [hl.start_eq, hl.sees_iff hblank, hs.sees_iff _ _ hblank,
    h.sees_first h.first.start_lt, h.sees_s]

/-- Joining changes nothing where there is an action. -/
theorem Beside.armed_or {a : ActionId} :
    (whole.joinLasts t).Reaches w p ∧ ((whole.joinLasts t).state p).action = some a ↔
      (Trail both.Edge nfa.start w p ∨ Trail both.Edge s w p) ∧
        (both.state p).action = some a := by
  have haction : ((whole.joinLasts t).state p).action = (whole.state p).action :=
    congrArg Prod.fst (hl.badge_eq p)
  by_cases hp : nfa.Behind both s p
  · rw [haction, hs.state_eq p hp]
    apply and_congr_left
    intro ha
    have hne : ((whole.joinLasts t).state p).badge ≠ Badge.blank := by
      intro heq
      rw [hl.badge_eq, hs.state_eq p hp] at heq
      have hnone : (both.state p).action = none := congrArg Prod.fst heq
      rw [hnone] at ha
      cases ha
    rw [Reaches, hl.start_eq, hl.trail_iff _ _ _ hne, hs.trail_iff w p hp]
  · rw [haction, hs.action_eq p hp, h.action_eq_none hp]
    simp

theorem Beside.wellFormed_or : (whole.joinLasts t).WellFormed := by
  have hlast := h.first.last_lt
  have hstart := hs.start_lt
  have hsize := hl.size_le
  have hne : (whole.joinLasts t).start ≠ (whole.joinLasts t).last := by
    rw [hl.start_eq]
    rcases hl.last_cases with heq | heq | heq
    · rw [heq]
      exact hs.start_ne_last
    · rw [heq]
      exact hs.start_ne_t
    · omega
  refine ⟨?_, hl.last_lt, hne, fun p l q e => ?_, fun p l e => ?_, hl.no_edge_last, ?_,
    fun p => ?_⟩
  · rw [hl.start_eq]
    omega
  · rcases hl.edge_cases p l q e with e | rfl
    · have := hs.edge_lt p l q e
      omega
    · exact hl.last_lt
  · rcases hl.edge_cases p l _ e with e | heq
    · rw [hl.start_eq] at e
      exact hs.no_edge_start p l e
    · exact hne heq
  · rw [hl.start_eq]
    exact (congrArg Prod.fst (hl.badge_eq _)).trans (hs.action_eq _ hs.start_not_behind)
  · rw [hl.trans_eq]
    exact hs.sorted p

end Or

end Nfa

end LongestMatch
