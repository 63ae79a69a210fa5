import LongestMatch.Dfa.Match
import LongestMatch.Proofs.Trails
import Mathlib.Data.List.Basic

/-!
# What the matcher finds

`Dfa.actionFrom` is the action that a compiled automaton assigns to a text. A scan of a source whose
reads do not fail remembers the longest prefix with an action (`best_scan`), so a text matched as a
whole gets exactly the action assigned to it (`matchWhole?_eq`).
-/

namespace LongestMatch

/-! ## Sources that do not fail -/

namespace Source

/-- No read that is still to come fails. -/
def Reliable (src : Source) : Prop :=
  ∀ n, src.reads ≤ n → src.fault n = none

theorem reliable_ofString (s : String) : (ofString s).Reliable :=
  fun _ _ => rfl

theorem remaining_ofString (s : String) : (ofString s).remaining = s.toList :=
  rfl

section Read

variable {src src' : Source} (h : src.Reliable)

include h

theorem Reliable.read : src.read.2.Reliable := by
  obtain ⟨pending, unread, reads, fault⟩ := src
  cases pending with
  | cons c rest => exact h
  | nil =>
    have hnow : fault reads = none := h reads (Nat.le_refl _)
    have hlater : ∀ n, reads + 1 ≤ n → fault n = none := fun n hn => h n (Nat.le_of_succ_le hn)
    simp only [Source.read, hnow]
    cases unread with
    | nil => exact hlater
    | cons c rest => exact hlater

theorem Reliable.read_ne_failed (reason : String) : src.read ≠ (.failed reason, src') := by
  obtain ⟨pending, unread, reads, fault⟩ := src
  cases pending with
  | cons c rest => simp [Source.read]
  | nil =>
    have hnow : fault reads = none := h reads (Nat.le_refl _)
    cases unread <;> simp [Source.read, hnow]

theorem Reliable.remaining_of_done (hread : src.read = (.done, src')) : src.remaining = [] := by
  obtain ⟨pending, unread, reads, fault⟩ := src
  cases pending with
  | cons c rest => simp [Source.read] at hread
  | nil =>
    have hnow : fault reads = none := h reads (Nat.le_refl _)
    cases unread with
    | nil => rfl
    | cons c rest => simp [Source.read, hnow] at hread

theorem Reliable.of_char {c : Char} (hread : src.read = (.char c, src')) :
    src'.Reliable ∧ src.remaining = c :: src'.remaining := by
  have hsrc' := h.read
  have hremaining := src.remaining_read
  rw [hread] at hsrc' hremaining
  exact ⟨hsrc', hremaining⟩

end Read

end Source

namespace Dfa

variable {dfa : Dfa}

/-! ## Reading a text in a compiled automaton -/

/-- The edges of a compiled automaton. -/
def Edge (dfa : Dfa) (i : Nat) : Option Char → Nat → Prop
  | none, _ => False
  | some c, j => (dfa.state i).table.get c = some j

/-- The state in which a text ends that is read from a state on, if the automaton can go on so far.
-/
def run (dfa : Dfa) (i : Nat) : List Char → Option Nat
  | [] => some i
  | c :: rest => ((dfa.state i).table.get c).bind fun next => dfa.run next rest

/-- The action of a text that is read from a state on. -/
def actionFrom (dfa : Dfa) (i : Nat) (w : List Char) : Option ActionId :=
  (dfa.run i w).bind fun j => (dfa.state j).action

theorem run_eq_some {i j : Nat} {w : List Char} : dfa.run i w = some j ↔ Trail dfa.Edge i w j := by
  induction w generalizing i with
  | nil =>
    rw [trail_nil_iff, run]
    constructor
    · intro h
      rw [Option.some.inj h]
    · intro h
      rcases Relation.ReflTransGen.cases_head h with rfl | ⟨_, e, -⟩
      · rfl
      · exact e.elim
  | cons c w ih =>
    rw [run, Option.bind_eq_some_iff]
    constructor
    · intro h'
      obtain ⟨k, hk, hj⟩ := h'
      exact .char hk (ih.1 hj)
    · intro h
      cases h with
      | silent e _ => exact e.elim
      | char e t => exact ⟨_, e, ih.2 t⟩

theorem actionFrom_nil (i : Nat) : dfa.actionFrom i [] = (dfa.state i).action :=
  rfl

theorem actionFrom_cons {i : Nat} {c : Char} {w : List Char} :
    dfa.actionFrom i (c :: w) =
      ((dfa.state i).table.get c).bind fun next => dfa.actionFrom next w := by
  rw [actionFrom, run, Option.bind_assoc]
  rfl

theorem actionFrom_eq_some {i : Nat} {w : List Char} {a : ActionId} :
    dfa.actionFrom i w = some a ↔ ∃ j, Trail dfa.Edge i w j ∧ (dfa.state j).action = some a := by
  simp only [actionFrom, Option.bind_eq_some_iff, run_eq_some]

/-! ## The longest prefix with an action -/

/-- How many characters of a text of some length may be read. -/
def allowance (limit : Option Nat) (length : Nat) : Nat :=
  (limit.map (min length)).getD length

/-- The longest of the prefixes of up to `bound` characters, but not the empty one, that have an
action if they are read from a state on. -/
structure IsLongest (dfa : Dfa) (i : Nat) (text : List Char) (bound k : Nat) (a : ActionId) :
    Prop where
  pos : 0 < k
  le_bound : k ≤ bound
  action_eq : dfa.actionFrom i (text.take k) = some a
  later : ∀ m, k < m → m ≤ bound → dfa.actionFrom i (text.take m) = none

/-- None of these prefixes has an action. -/
def HasNone (dfa : Dfa) (i : Nat) (text : List Char) (bound : Nat) : Prop :=
  ∀ m, 0 < m → m ≤ bound → dfa.actionFrom i (text.take m) = none

theorem actionFrom_take_succ {i k : Nat} {c : Char} {rest : List Char} :
    dfa.actionFrom i ((c :: rest).take (k + 1)) =
      ((dfa.state i).table.get c).bind fun next => dfa.actionFrom next (rest.take k) := by
  rw [List.take_succ_cons, actionFrom_cons]

/-- What a scan remembers that has read `length` characters before it came to the state `i`: the
longest prefix of the rest with an action, or what it had before. -/
def Remembers (dfa : Dfa) (i : Nat) (text : List Char) (bound length : Nat)
    (before after : Option MatchEnd) : Prop :=
  (∃ k a, dfa.IsLongest i text bound k a ∧ after = some ⟨a, length + k⟩) ∨
    (dfa.HasNone i text bound ∧ after = before)

theorem hasNone_zero (i : Nat) (text : List Char) : dfa.HasNone i text 0 :=
  fun _ hm hle => absurd (Nat.lt_of_lt_of_le hm hle) (Nat.lt_irrefl 0)

section Step

variable {i next bound : Nat} {c : Char} {rest : List Char}

/-- A character that leads nowhere ends it. -/
theorem hasNone_of_get_eq_none (hget : (dfa.state i).table.get c = none) :
    dfa.HasNone i (c :: rest) bound := by
  intro m hm _
  obtain ⟨k, rfl⟩ := Nat.exists_eq_add_one_of_ne_zero (Nat.pos_iff_ne_zero.1 hm)
  rw [actionFrom_take_succ, hget]
  rfl

section Next

variable (hget : (dfa.state i).table.get c = some next)

include hget

theorem actionFrom_take_one :
    dfa.actionFrom i ((c :: rest).take 1) = (dfa.state next).action := by
  rw [actionFrom_take_succ, hget]
  rfl

/-- A longest prefix of the rest makes one of the whole. -/
theorem IsLongest.cons {k : Nat} {a : ActionId} (h : dfa.IsLongest next rest bound k a) :
    dfa.IsLongest i (c :: rest) (bound + 1) (k + 1) a := by
  refine ⟨Nat.succ_pos k, Nat.succ_le_succ h.le_bound, ?_, fun m hm hle => ?_⟩
  · rw [actionFrom_take_succ, hget]
    exact h.action_eq
  · obtain ⟨m, rfl⟩ := Nat.exists_eq_add_one_of_ne_zero (by omega : m ≠ 0)
    rw [actionFrom_take_succ, hget]
    exact h.later m (by omega) (by omega)

/-- If the rest has none, what is left is the first character alone. -/
theorem HasNone.cons (h : dfa.HasNone next rest bound) {m : Nat} (hm : 1 < m)
    (hle : m ≤ bound + 1) : dfa.actionFrom i ((c :: rest).take m) = none := by
  obtain ⟨m, rfl⟩ := Nat.exists_eq_add_one_of_ne_zero (by omega : m ≠ 0)
  rw [actionFrom_take_succ, hget]
  exact h m (by omega) (by omega)

/-- One more character in front: what the scan had after it is the action there, if there is one. -/
theorem Remembers.cons {s : Scan} {after : Option MatchEnd}
    (h : dfa.Remembers next rest bound (s.length + 1) (s.advance dfa c next).best after) :
    dfa.Remembers i (c :: rest) (bound + 1) s.length s.best after := by
  rcases h with ⟨k, a, hk, rfl⟩ | ⟨hnone, rfl⟩
  · exact .inl ⟨k + 1, a, hk.cons hget, by rw [Nat.add_comm k 1, Nat.add_assoc]⟩
  · rw [Scan.advance]
    cases haction : (dfa.state next).action with
    | some a =>
      refine .inl ⟨1, a, ⟨Nat.one_pos, Nat.le_add_left 1 bound, ?_, fun m hm hle => ?_⟩, rfl⟩
      · rw [actionFrom_take_one hget, haction]
      · exact hnone.cons hget hm hle
    | none =>
      refine .inr ⟨fun m hm hle => ?_, rfl⟩
      rcases Nat.eq_or_lt_of_le hm with rfl | hm
      · rw [actionFrom_take_one hget, haction]
      · exact hnone.cons hget hm hle

end Next

end Step

theorem allowance_zero (length : Nat) : allowance (some 0) length = 0 :=
  Nat.min_zero length

theorem allowance_nil (limit : Option Nat) : allowance limit 0 = 0 := by
  cases limit with
  | none => rfl
  | some bound => exact Nat.zero_min bound

theorem allowance_succ {limit : Option Nat} (hlimit : ¬limit = some 0) (length : Nat) :
    allowance limit (length + 1) = allowance (limit.map (· - 1)) length + 1 := by
  rcases limit with _ | bound
  · rfl
  · have : bound ≠ 0 := fun h => hlimit (by rw [h])
    simp only [allowance, Option.map_some, Option.getD_some]
    omega

/-- A scan remembers the longest prefix with an action that it was allowed to read. -/
theorem best_scan {src : Source} (hsrc : src.Reliable) (i : Nat) (s : Scan) (limit : Option Nat) :
    dfa.Remembers i src.remaining (allowance limit src.remaining.length) s.length s.best
      (dfa.scan i s limit src).2.1.best := by
  fun_induction dfa.scan i s limit src with
  | case1 i s src => -- nothing may be read any more
    rw [allowance_zero]
    exact .inr ⟨hasNone_zero i _, rfl⟩
  | case2 i s limit src _ reason src' h => exact absurd h (hsrc.read_ne_failed reason)
  | case3 i s limit src _ src' h => -- the text is at its end
    rw [hsrc.remaining_of_done h, List.length_nil, allowance_nil]
    exact .inr ⟨hasNone_zero i _, rfl⟩
  | case4 i s limit src _ c src' h hget => -- the character leads nowhere
    rw [(hsrc.of_char h).2]
    exact .inr ⟨hasNone_of_get_eq_none hget, rfl⟩
  | case5 i s limit src hlimit c src' h next hget _ ih => -- the character leads on
    obtain ⟨hsrc', hremaining⟩ := hsrc.of_char h
    rw [hremaining, List.length_cons, allowance_succ hlimit]
    exact (ih hsrc').cons hget

/-- A scan of a source whose reads do not fail ends with the source exhausted, or it is stuck. -/
theorem stop_scan {src : Source} (hsrc : src.Reliable) (i : Nat) (s : Scan) (limit : Option Nat) :
    (dfa.scan i s limit src).1 = .stuck ∨
      (dfa.scan i s limit src).1 = .exhausted ∧ (dfa.scan i s limit src).2.2.remaining = [] := by
  fun_induction dfa.scan i s limit src with
  | case1 => exact .inl rfl
  | case2 i s limit src _ reason src' h => exact absurd h (hsrc.read_ne_failed reason)
  | case3 i s limit src _ src' h =>
    have hkept := src.remaining_read
    rw [h, hsrc.remaining_of_done h] at hkept
    exact .inr ⟨rfl, hkept⟩
  | case4 => exact .inl rfl
  | case5 i s limit src _ c src' h next _ _ ih => exact ih (hsrc.of_char h).1

/-- The best match never goes beyond what has been read. -/
theorem length_best_le (i : Nat) (s : Scan) (limit : Option Nat) (src : Source)
    (hlength : s.length ≤ s.read.length) (hbest : ∀ e ∈ s.best, e.length ≤ s.read.length) :
    ∀ e ∈ (dfa.scan i s limit src).2.1.best,
      e.length ≤ (dfa.scan i s limit src).2.1.read.length := by
  fun_induction dfa.scan i s limit src with
  | case1 => exact hbest
  | case2 => exact hbest
  | case3 => exact hbest
  | case4 => exact fun e he => Nat.le_succ_of_le (hbest e he)
  | case5 i s limit src _ c src' _ next _ _ ih =>
    apply ih (Nat.succ_le_succ hlength)
    intro e he
    simp only [Scan.advance, List.length_cons] at he ⊢
    split at he
    · obtain rfl := Option.mem_some_iff.1 he
      exact Nat.succ_le_succ hlength
    · exact Nat.le_succ_of_le (hbest e he)

/-! ## What comes of a match -/

section Outcome

variable {src : Source}

/-- Where no more may be read, or something is left to read, the best match decides. -/
theorem matchLimited_of_best (hsrc : src.Reliable) (limit : Option Nat) (out : String)
    (hgo : limit = some 0 ∨ src.remaining ≠ []) :
    match (dfa.scan 0 dfa.scanStart limit src).2.1.best with
    | none =>
      (dfa.matchLimited limit src out).result = .ok .noMatch ∧
        (dfa.matchLimited limit src out).added = []
    | some e =>
      (dfa.matchLimited limit src out).result = .ok (.matched e.action) ∧
        (dfa.matchLimited limit src out).added = src.remaining.take e.length := by
  have hstop := dfa.stop_scan hsrc 0 dfa.scanStart limit
  have hkept := dfa.remaining_scan 0 dfa.scanStart limit src
  have hlength := dfa.length_best_le 0 dfa.scanStart limit src (Nat.le_refl 0)
    (fun e he => by obtain ⟨a, -, rfl⟩ := Option.map_eq_some_iff.1 he; exact Nat.le_refl 0)
  have hzero : limit = some 0 → (dfa.scan 0 dfa.scanStart limit src).1 = .stuck := by
    intro hlimit
    rw [scan, if_pos hlimit]
  unfold matchLimited
  generalize dfa.scan 0 dfa.scanStart limit src = outcome at hstop hkept hlength hzero ⊢
  obtain ⟨stop, ⟨read, length, states, best⟩, src'⟩ := outcome
  replace hkept : read.reverse ++ src'.remaining = src.remaining := hkept
  replace hlength : ∀ e ∈ best, e.length ≤ read.length := hlength
  have hadded : ∀ e ∈ best, read.reverse.take e.length = src.remaining.take e.length := by
    intro e he
    rw [← hkept, List.take_append_of_le_length (by simpa using hlength e he)]
  rcases hstop with hstuck | ⟨hend, hnil⟩
  · obtain rfl : stop = .stuck := hstuck
    cases best with
    | none => exact ⟨rfl, rfl⟩
    | some e => exact ⟨rfl, hadded e rfl⟩
  · obtain rfl : stop = .exhausted := hend
    replace hnil : src'.remaining = [] := hnil
    -- the source had characters, so some were read
    obtain ⟨c, rest, rfl⟩ : ∃ c rest, read = c :: rest := by
      refine List.exists_cons_of_ne_nil fun hread => ?_
      rcases hgo with hlimit | hne
      · cases hzero hlimit
      · apply hne
        rw [← hkept, hread, hnil]
        rfl
    cases best with
    | none => exact ⟨rfl, rfl⟩
    | some e => exact ⟨rfl, hadded e rfl⟩

end Outcome

/-! ## Matching a text as a whole -/

theorem utf8ByteSize_take_eq {w : List Char} {k : Nat} :
    (String.ofList (w.take k)).utf8ByteSize = (String.ofList w).utf8ByteSize ↔ w.length ≤ k := by
  have hcut : String.ofList w = String.ofList (w.take k) ++ String.ofList (w.drop k) := by
    rw [← String.ofList_append, List.take_append_drop]
  rw [hcut, String.utf8ByteSize_append, ← List.drop_eq_nil_iff]
  constructor
  · intro h
    have hzero : (String.ofList (w.drop k)).utf8ByteSize = 0 := by omega
    rw [String.utf8ByteSize_eq_zero_iff] at hzero
    simpa using congrArg String.toList hzero
  · intro h
    rw [h]
    rfl

/-- A text that is not empty is matched as a whole if the best match is as long as the text. -/
theorem matchWhole?_of_ne_nil {text : String} (hne : text.toList ≠ []) :
    dfa.matchWhole? text =
      (dfa.scan 0 dfa.scanStart none (Source.ofString text)).2.1.best.bind fun e =>
        if text.toList.length ≤ e.length then some e.action else none := by
  have hempty : ¬text.isEmpty = true := by simpa using hne
  have hstep := dfa.matchLimited_of_best (Source.reliable_ofString text) none "" (.inr hne)
  rw [Source.remaining_ofString] at hstep
  unfold matchWhole? find? matchNext
  rw [if_neg hempty]
  generalize (dfa.scan 0 dfa.scanStart none (Source.ofString text)).2.1.best = best at hstep ⊢
  cases best with
  | none => simp [hstep.1]
  | some e =>
    obtain ⟨hresult, hadded⟩ := hstep
    have hsize := utf8ByteSize_take_eq (w := text.toList) (k := e.length)
    rw [String.ofList_toList] at hsize
    simp only [hresult, MatchStep.extend, hadded, String.empty_append, hsize]
    rfl

/-- A text that is matched as a whole gets the action assigned to it. -/
theorem matchWhole?_eq (text : String) :
    dfa.matchWhole? text = dfa.actionFrom 0 text.toList := by
  by_cases hempty : text = ""
  · rw [hempty, matchWhole?, find?]
    rcases haction : (dfa.state 0).action with _ | a
    · simp [actionFrom_nil, haction]
    · simp [actionFrom_nil, haction]
  · have hne : text.toList ≠ [] := by simpa using hempty
    have hpos : 0 < text.toList.length := List.length_pos_iff.2 hne
    have hwhole : text.toList.take text.toList.length = text.toList := List.take_length
    have hbest := dfa.best_scan (Source.reliable_ofString text) 0 dfa.scanStart none
    have hall : allowance none text.toList.length = text.toList.length := rfl
    rw [Source.remaining_ofString, hall] at hbest
    rw [matchWhole?_of_ne_nil hne]
    rcases hbest with ⟨k, a, hk, hbest⟩ | ⟨hnone, hbest⟩
    · have hk' : dfa.scanStart.length + k = k := Nat.zero_add k
      rw [hbest, Option.bind_some, hk']
      by_cases hle : text.toList.length ≤ k
      · obtain rfl : k = text.toList.length := Nat.le_antisymm hk.le_bound hle
        rw [if_pos hle, ← hk.action_eq, hwhole]
      · rw [if_neg hle, ← hwhole, hk.later _ (by omega) (Nat.le_refl _)]
    · -- at most the empty prefix has an action, and the text is longer
      have hnot : dfa.actionFrom 0 text.toList = none := by
        rw [← hwhole, hnone _ hpos (Nat.le_refl _)]
      rw [hbest, hnot, Option.bind_eq_none_iff]
      intro e he
      obtain ⟨a, -, rfl⟩ := Option.map_eq_some_iff.1 he
      exact if_neg (Nat.not_le.2 hpos)

/-- A text that leads nowhere has no action. -/
theorem matchWhole?_eq_none {text : String} (h : ∀ i, ¬Trail dfa.Edge 0 text.toList i) :
    dfa.matchWhole? text = none := by
  rw [matchWhole?_eq, Option.eq_none_iff_forall_ne_some]
  intro a ha
  obtain ⟨i, hi, -⟩ := actionFrom_eq_some.1 ha
  exact h i hi

end Dfa

end LongestMatch
