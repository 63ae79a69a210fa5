import LongestMatch.Proofs.Matching

/-!
# The longest match, and what lies beyond it

A match takes the longest prefix with an action that the limit allows, and what was read beyond it
goes back to the source (`longest_match_exact`). The empty prefix counts: it is taken where the
start has an action and no longer prefix has one. Only where there was something to read, and there
is nothing, does a match report the end of the input instead.

The limit is a number of characters; without one, a match may go on to the end of the input. The
spans of the groups are read off the way that was taken, and decide nothing of this.
-/

namespace LongestMatch

namespace Dfa

variable {dfa : Dfa} {src : Source} {limit : Option Nat} {text : List Char} {k l : Nat}
  {a b : ActionId}

/-! ## Longest prefixes -/

/-- The first `k` characters of a text are the longest of its prefixes within the limit that have an
action, which is `a`. -/
structure LongestPrefix (dfa : Dfa) (limit : Option Nat) (text : List Char) (k : Nat)
    (a : ActionId) : Prop where
  le_limit : ∀ bound ∈ limit, k ≤ bound
  le_length : k ≤ text.length
  action_eq : dfa.actionFrom 0 (text.take k) = some a
  later : ∀ m, k < m → (∀ bound ∈ limit, m ≤ bound) → m ≤ text.length →
    dfa.actionFrom 0 (text.take m) = none

theorem le_allowance_iff {m length : Nat} :
    m ≤ allowance limit length ↔ (∀ bound ∈ limit, m ≤ bound) ∧ m ≤ length := by
  cases limit with
  | none => simp [allowance]
  | some bound => simp [allowance, and_comm]

/-- There is at most one longest prefix. -/
theorem LongestPrefix.unique (h : dfa.LongestPrefix limit text k a)
    (h' : dfa.LongestPrefix limit text l b) : k = l ∧ a = b := by
  have hle : ∀ {k l a b}, dfa.LongestPrefix limit text k a → dfa.LongestPrefix limit text l b →
      l ≤ k := by
    intro k l a b h h'
    by_contra hlt
    have hnone := h.later l (Nat.lt_of_not_le hlt) h'.le_limit h'.le_length
    rw [h'.action_eq] at hnone
    cases hnone
  obtain rfl : k = l := Nat.le_antisymm (hle h' h) (hle h h')
  refine ⟨rfl, Option.some.inj ?_⟩
  rw [← h.action_eq, ← h'.action_eq]

/-- What the longest prefix is depends on the actions of texts only. -/
theorem longestPrefix_congr {other : Dfa}
    (h : ∀ w, dfa.actionFrom 0 w = other.actionFrom 0 w) :
    dfa.LongestPrefix limit text k a ↔ other.LongestPrefix limit text k a := by
  have hone : ∀ {dfa other : Dfa}, (∀ w, dfa.actionFrom 0 w = other.actionFrom 0 w) →
      dfa.LongestPrefix limit text k a → other.LongestPrefix limit text k a := by
    intro dfa other h hk
    refine ⟨hk.le_limit, hk.le_length, (h _).symm.trans hk.action_eq, fun m hlt hlimit hlength => ?_⟩
    exact (h _).symm.trans (hk.later m hlt hlimit hlength)
  exact ⟨hone h, hone fun w => (h w).symm⟩

/-- What a scan from the start remembers is the longest prefix. -/
theorem longestPrefix_of_best (hsrc : src.Reliable)
    (hbest : (dfa.scan 0 dfa.scanStart limit src).2.1.best = some ⟨a, k⟩) :
    dfa.LongestPrefix limit src.remaining k a := by
  rcases dfa.best_scan hsrc 0 dfa.scanStart limit with ⟨m, b, hm, heq⟩ | ⟨hnone, heq⟩
  · -- a prefix that is not empty
    rw [hbest] at heq
    obtain ⟨rfl, rfl⟩ := MatchEnd.mk.inj (Option.some.inj heq)
    have hm : dfa.IsLongest 0 src.remaining (allowance limit src.remaining.length)
        (dfa.scanStart.length + m) a := (Nat.zero_add m).symm ▸ hm
    obtain ⟨hlimit, hlength⟩ := le_allowance_iff.1 hm.le_bound
    refine ⟨hlimit, hlength, hm.action_eq, fun m hlt hle hlen => ?_⟩
    exact hm.later m hlt (le_allowance_iff.2 ⟨hle, hlen⟩)
  · -- the action of the start
    rw [hbest] at heq
    obtain ⟨b, hb, heq⟩ := Option.map_eq_some_iff.1 heq.symm
    obtain ⟨rfl, rfl⟩ := MatchEnd.mk.inj heq
    refine ⟨fun _ _ => Nat.zero_le _, Nat.zero_le _, hb, fun m hlt hle hlen => ?_⟩
    exact hnone m hlt (le_allowance_iff.2 ⟨hle, hlen⟩)

/-- If a scan from the start remembers nothing, no prefix has an action. -/
theorem not_longestPrefix_of_best (hsrc : src.Reliable)
    (hbest : (dfa.scan 0 dfa.scanStart limit src).2.1.best = none) :
    ¬dfa.LongestPrefix limit src.remaining k a := by
  intro h
  rcases dfa.best_scan hsrc 0 dfa.scanStart limit with ⟨m, b, -, heq⟩ | ⟨hnone, heq⟩
  · rw [hbest] at heq
    cases heq
  · have hstart : (dfa.state 0).action = none := Option.map_eq_none_iff.1 (heq.symm.trans hbest)
    have hk := h.action_eq
    rcases Nat.eq_zero_or_pos k with rfl | hpos
    · rw [List.take_zero, actionFrom_nil, hstart] at hk
      cases hk
    · rw [hnone k hpos (le_allowance_iff.2 ⟨h.le_limit, h.le_length⟩)] at hk
      cases hk

theorem best_eq_some_iff (hsrc : src.Reliable) :
    (dfa.scan 0 dfa.scanStart limit src).2.1.best = some ⟨a, k⟩ ↔
      dfa.LongestPrefix limit src.remaining k a := by
  refine ⟨longestPrefix_of_best hsrc, fun h => ?_⟩
  cases hbest : (dfa.scan 0 dfa.scanStart limit src).2.1.best with
  | none => exact absurd h (not_longestPrefix_of_best hsrc hbest)
  | some e =>
    obtain ⟨rfl, rfl⟩ := (longestPrefix_of_best hsrc hbest).unique h
    rfl

/-! ## Matches -/

/-- Where there is nothing to read, a match that may read finds the end of the input. -/
theorem matchLimited_of_remaining_nil (hsrc : src.Reliable) (hlimit : limit ≠ some 0)
    (hnil : src.remaining = []) (out : String) :
    dfa.matchLimited limit src out =
      ⟨.ok .endOfInput, [], { src with reads := src.reads + 1 }, []⟩ := by
  obtain ⟨pending, unread, reads, fault⟩ := src
  obtain ⟨rfl, rfl⟩ := List.append_eq_nil_iff.1 hnil
  have hfault : fault reads = none := hsrc reads (Nat.le_refl _)
  have hread : Source.read ⟨[], [], reads, fault⟩ = (.done, ⟨[], [], reads + 1, fault⟩) := by
    simp only [Source.read, hfault]
  have hscan : dfa.scan 0 dfa.scanStart limit ⟨[], [], reads, fault⟩ =
      (.exhausted, dfa.scanStart, ⟨[], [], reads + 1, fault⟩) := by
    rw [scan, if_neg hlimit]
    split
    · next h => rw [hread] at h; cases h
    · next h => rw [hread] at h; cases h; rfl
    · next h => rw [hread] at h; cases h
  rw [matchLimited, hscan]
  rfl

/-- The characters that a match adds to the output are gone from the source. -/
theorem remaining_matchLimited {out : String} {n : Nat}
    (hadded : (dfa.matchLimited limit src out).added = src.remaining.take n) :
    (dfa.matchLimited limit src out).source.remaining = src.remaining.drop n := by
  have hkept := dfa.added_matchLimited limit src out
  rw [hadded] at hkept
  refine List.append_cancel_left (hkept.trans ?_)
  exact (List.take_append_drop n src.remaining).symm

theorem added_of_longestPrefix (hsrc : src.Reliable)
    (hgo : limit = some 0 ∨ src.remaining ≠ []) (h : dfa.LongestPrefix limit src.remaining k a)
    (out : String) : (dfa.matchLimited limit src out).added = src.remaining.take k := by
  have hmatch := dfa.matchLimited_of_best hsrc limit out hgo
  rw [(best_eq_some_iff hsrc).2 h] at hmatch
  exact hmatch.2

theorem matchLimited_of_longestPrefix (hsrc : src.Reliable)
    (hgo : limit = some 0 ∨ src.remaining ≠ []) (h : dfa.LongestPrefix limit src.remaining k a)
    (out : String) :
    (dfa.matchLimited limit src out).result = .ok (.matched a) ∧
      (dfa.matchLimited limit src out).extend out = out ++ String.ofList (src.remaining.take k) ∧
      (dfa.matchLimited limit src out).source.remaining = src.remaining.drop k := by
  have hmatch := dfa.matchLimited_of_best hsrc limit out hgo
  rw [(best_eq_some_iff hsrc).2 h] at hmatch
  obtain ⟨hresult, hadded⟩ := hmatch
  exact ⟨hresult, by rw [MatchStep.extend, hadded], remaining_matchLimited hadded⟩

theorem matchLimited_of_not_longestPrefix (hsrc : src.Reliable)
    (hgo : limit = some 0 ∨ src.remaining ≠ [])
    (h : ∀ k a, ¬dfa.LongestPrefix limit src.remaining k a) (out : String) :
    (dfa.matchLimited limit src out).result = .ok .noMatch ∧
      (dfa.matchLimited limit src out).extend out = out ∧
      (dfa.matchLimited limit src out).source.remaining = src.remaining := by
  have hbest : (dfa.scan 0 dfa.scanStart limit src).2.1.best = none := by
    rw [Option.eq_none_iff_forall_ne_some]
    intro e he
    exact h e.length e.action ((best_eq_some_iff hsrc).1 he)
  have hmatch := dfa.matchLimited_of_best hsrc limit out hgo
  rw [hbest] at hmatch
  obtain ⟨hresult, hadded⟩ := hmatch
  have hkept := dfa.added_matchLimited limit src out
  rw [hadded] at hkept
  exact ⟨hresult, by rw [MatchStep.extend, hadded]; exact String.append_empty, hkept⟩

/-! ## Matches at the beginning of a text -/

theorem longestPrefix_nil : dfa.LongestPrefix limit [] k a ↔
    k = 0 ∧ (dfa.state 0).action = some a := by
  constructor
  · intro h
    obtain rfl : k = 0 := Nat.le_zero.1 h.le_length
    exact ⟨rfl, h.action_eq⟩
  · rintro ⟨rfl, ha⟩
    refine ⟨fun _ _ => Nat.zero_le _, Nat.le_refl _, ha, fun m hlt _ hlen => ?_⟩
    exact absurd hlen (Nat.not_le.2 hlt)

/-- The match found at the beginning of a text is its longest prefix with an action. -/
theorem find?_eq_some_iff (text : String) {n : Nat} : dfa.find? text = some (a, n) ↔
    ∃ k, dfa.LongestPrefix none text.toList k a ∧
      n = (String.ofList (text.toList.take k)).utf8ByteSize := by
  by_cases hempty : text = ""
  · subst hempty
    show (dfa.state 0).action.map (fun action => (action, 0)) = some (a, n) ↔ _
    simp only [String.toList_empty, longestPrefix_nil, Option.map_eq_some_iff, Prod.mk.injEq]
    constructor
    · rintro ⟨b, hb, rfl, rfl⟩
      exact ⟨0, ⟨rfl, hb⟩, rfl⟩
    · rintro ⟨k, ⟨rfl, hb⟩, rfl⟩
      exact ⟨a, hb, rfl, rfl⟩
  · have hne : text.toList ≠ [] := by simpa using hempty
    have hsrc := Source.reliable_ofString text
    have hfind : dfa.find? text = (dfa.matchNext (Source.ofString text) "").action?.map
        fun action =>
          (action, ((dfa.matchNext (Source.ofString text) "").extend "").utf8ByteSize) := by
      unfold find? MatchStep.action?
      rw [if_neg (by simpa using hempty)]
      simp only
      rcases (dfa.matchNext (Source.ofString text) "").result with reason | outcome
      · rfl
      · cases outcome <;> rfl
    by_cases hlongest : ∃ l b, dfa.LongestPrefix none text.toList l b
    · obtain ⟨l, b, hl⟩ := hlongest
      obtain ⟨hresult, hextend, -⟩ := matchLimited_of_longestPrefix hsrc (.inr hne) hl ""
      rw [hfind, MatchStep.action?, matchNext, hresult, hextend]
      simp only [Option.map_some, Option.some.injEq, Prod.mk.injEq, String.empty_append,
        Source.remaining_ofString]
      constructor
      · rintro ⟨rfl, rfl⟩
        exact ⟨l, hl, rfl⟩
      · rintro ⟨k, hk, rfl⟩
        obtain ⟨rfl, rfl⟩ := hl.unique hk
        exact ⟨rfl, rfl⟩
    · have hno : ∀ k a, ¬dfa.LongestPrefix none text.toList k a :=
        fun k a h => hlongest ⟨k, a, h⟩
      obtain ⟨hresult, -, -⟩ := matchLimited_of_not_longestPrefix hsrc (.inr hne) hno ""
      rw [hfind, MatchStep.action?, matchNext, hresult]
      simp [hno]

/-- A text is matched as a whole if the longest prefix covers it. -/
theorem matchWhole?_eq_some_iff (text : String) : dfa.matchWhole? text = some a ↔
    dfa.LongestPrefix none text.toList text.toList.length a := by
  rw [matchWhole?_eq]
  constructor
  · intro h
    refine { le_limit := ?_, le_length := Nat.le_refl _, action_eq := ?_, later := ?_ }
    · intro bound hbound
      cases hbound
    · rw [List.take_length, h]
    · intro m hlt _ hlen
      exact absurd hlen (Nat.not_le.2 hlt)
  · intro h
    rw [← h.action_eq, List.take_length]

/-! ## The whole of it -/

/-- On a source whose reads do not fail, a match that may read, and finds nothing to read, reports
the end of the input and changes neither the output nor what the source holds. Any other match takes
the longest prefix with an action that the limit allows: its characters are added to the output, and
the source goes on behind them. If there is no such prefix nothing is taken. At the beginning of a
text the same prefix is found, and the text is matched as a whole if that is all of it. -/
theorem longest_match_exact (dfa : Dfa) :
    (∀ src : Source, src.Reliable → ∀ (limit : Option Nat) (out : String),
      (limit ≠ some 0 → src.remaining = [] →
        (dfa.matchLimited limit src out).result = .ok .endOfInput ∧
          (dfa.matchLimited limit src out).extend out = out ∧
          (dfa.matchLimited limit src out).source.pending = src.pending ∧
          (dfa.matchLimited limit src out).source.unread = src.unread) ∧
      (limit = some 0 ∨ src.remaining ≠ [] →
        (∀ k a, dfa.LongestPrefix limit src.remaining k a →
          (dfa.matchLimited limit src out).result = .ok (.matched a) ∧
            (dfa.matchLimited limit src out).extend out =
              out ++ String.ofList (src.remaining.take k) ∧
            (dfa.matchLimited limit src out).source.remaining = src.remaining.drop k) ∧
        ((∀ k a, ¬dfa.LongestPrefix limit src.remaining k a) →
          (dfa.matchLimited limit src out).result = .ok .noMatch ∧
            (dfa.matchLimited limit src out).extend out = out ∧
            (dfa.matchLimited limit src out).source.remaining = src.remaining))) ∧
    ∀ text : String,
      (∀ a n, dfa.find? text = some (a, n) ↔ ∃ k, dfa.LongestPrefix none text.toList k a ∧
        n = (String.ofList (text.toList.take k)).utf8ByteSize) ∧
      ∀ a, dfa.matchWhole? text = some a ↔
        dfa.LongestPrefix none text.toList text.toList.length a := by
  refine ⟨fun src hsrc limit out => ⟨fun hlimit hnil => ?_, fun hgo => ⟨fun k a h => ?_, fun h => ?_⟩⟩,
    fun text => ⟨fun a n => find?_eq_some_iff text, fun a => matchWhole?_eq_some_iff text⟩⟩
  · rw [matchLimited_of_remaining_nil hsrc hlimit hnil]
    exact ⟨rfl, String.append_empty, rfl, rfl⟩
  · exact matchLimited_of_longestPrefix hsrc hgo h out
  · exact matchLimited_of_not_longestPrefix hsrc hgo h out

/-- An automaton that matches `é` with the action 5 and `éab` with the action 6. -/
def stopOrGoOn : Dfa where
  states := #[{ table := .single 'é' 1 }, { table := .single 'a' 2, action := some 5 },
    { table := .single 'b' 3 }, { action := some 6 }]
  catalog := ⟨fun _ => 0, fun _ _ => .clash, fun a => [a], fun _ => ""⟩
  failPolicy := .copy
  eofAction := none

/-- With `éa` pushed back before `xyz`, a match of up to three characters gets as far as `x` and
comes back to `é`. That reads failed earlier does not matter. -/
theorem longest_match_exact_stopOrGoOn :
    let src : Source := ⟨['é', 'a'], ['x', 'y', 'z'], 2, fun n => if n < 2 then some "down" else none⟩
    let step := stopOrGoOn.matchLimited (some 3) src ">é"
    src.Reliable ∧ step.result = .ok (.matched 5) ∧ step.extend ">é" = ">éé" ∧
      step.source.remaining = ['a', 'x', 'y', 'z'] := by
  intro src step
  have hsrc : src.Reliable := fun n hn => if_neg (Nat.not_lt.2 hn)
  have hlongest : stopOrGoOn.LongestPrefix (some 3) src.remaining 1 5 := by
    refine { le_limit := by simp, le_length := by decide, action_eq := by decide, later := ?_ }
    intro m hm hlimit _
    have hle : m ≤ 3 := hlimit 3 rfl
    obtain rfl | rfl : m = 2 ∨ m = 3 := by omega
    · decide
    · decide
  obtain ⟨hmatch, -⟩ := stopOrGoOn.longest_match_exact
  exact ⟨hsrc, ((hmatch src hsrc (some 3) ">é").2 (.inr (by decide))).1 1 5 hlongest⟩

end Dfa

end LongestMatch
