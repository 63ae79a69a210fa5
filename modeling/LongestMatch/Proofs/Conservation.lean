import LongestMatch.Proofs.Longest
import LongestMatch.Proofs.Offsets

/-!
# No character is lost

A `Session` is an output and the source from which it is filled. Whatever is done with them, in
whatever order, its content stays the same: the output, then what is pending, then what is unread
(`Session.content_conserved`). This does not depend on which reads fail. A failure within a match
leaves nothing pending: all that the match has read is in the output, and the next use goes on
behind it (`Dfa.matchLimited_of_error`).
-/

namespace LongestMatch

/-! ## Reads that fail -/

namespace Source

variable {src src' : Source} {c : Char} {reason : String}

/-- Only a read beyond the pending characters fails, and it takes nothing. -/
theorem read_eq_failed (h : src.read = (.failed reason, src')) :
    src.pending = [] ∧ src.fault src.reads = some reason ∧
      src' = { src with reads := src.reads + 1 } := by
  obtain ⟨pending, unread, reads, fault⟩ := src
  cases pending with
  | cons c rest => cases h
  | nil =>
    cases hfault : fault reads with
    | none => cases unread <;> simp [read, hfault] at h
    | some reason' =>
      simp only [read, hfault] at h
      cases h
      exact ⟨rfl, hfault, rfl⟩

/-- A character is the first that is pending or, with nothing pending, the first that is unread. -/
theorem read_eq_char (h : src.read = (.char c, src')) :
    (∃ rest, src.pending = c :: rest ∧ src' = { src with pending := rest }) ∨
      (∃ rest, src.pending = [] ∧ src.unread = c :: rest ∧ src.fault src.reads = none ∧
        src' = { src with unread := rest, reads := src.reads + 1 }) := by
  obtain ⟨pending, unread, reads, fault⟩ := src
  cases pending with
  | cons d rest =>
    cases h
    exact .inl ⟨rest, rfl, rfl⟩
  | nil =>
    refine .inr ?_
    cases hfault : fault reads with
    | some reason => simp [read, hfault] at h
    | none =>
      cases unread with
      | nil => simp [read, hfault] at h
      | cons d rest =>
        simp only [read, hfault] at h
        cases h
        exact ⟨rest, rfl, rfl, hfault, rfl⟩

/-- What a source holds after `n` new characters have been read and the next read has failed. -/
structure FailsAfter (src : Source) (n : Nat) (reason : String) (src' : Source) : Prop where
  le_length : n ≤ src.unread.length
  earlier : ∀ m < n, src.fault (src.reads + m) = none
  fault_eq : src.fault (src.reads + n) = some reason
  source_eq :
    src' = { src with pending := [], unread := src.unread.drop n, reads := src.reads + n + 1 }

/-- A failure after a pending character has been read. -/
theorem FailsAfter.pending {n : Nat} {rest : List Char}
    (h : FailsAfter { src with pending := rest } n reason src') : FailsAfter src n reason src' :=
  ⟨h.le_length, h.earlier, h.fault_eq, h.source_eq⟩

/-- A failure after a new character has been read. -/
theorem FailsAfter.unread {n : Nat} {rest : List Char} (hunread : src.unread = c :: rest)
    (hfault : src.fault src.reads = none)
    (h : FailsAfter { src with unread := rest, reads := src.reads + 1 } n reason src') :
    FailsAfter src (n + 1) reason src' := by
  have hreads : ∀ m, src.reads + 1 + m = src.reads + (m + 1) := by
    intro m
    omega
  refine { le_length := ?_, earlier := ?_, fault_eq := ?_, source_eq := ?_ }
  · rw [hunread]
    exact Nat.succ_le_succ h.le_length
  · intro m hm
    cases m with
    | zero => exact hfault
    | succ m =>
      rw [← hreads]
      exact h.earlier m (Nat.lt_of_succ_lt_succ hm)
  · rw [← hreads]
    exact h.fault_eq
  · simp only [h.source_eq, hunread, List.drop_succ_cons, hreads]

end Source

namespace Dfa

variable {dfa : Dfa}

/-- A scan in which a read fails has read all that was pending and some of the rest. -/
theorem scan_of_failed (i : Nat) (s : Scan) (limit : Option Nat) (src : Source) {reason : String}
    (h : (dfa.scan i s limit src).1 = .failed reason) :
    ∃ n, (dfa.scan i s limit src).2.1.read.reverse =
        s.read.reverse ++ src.pending ++ src.unread.take n ∧
      src.FailsAfter n reason (dfa.scan i s limit src).2.2 := by
  fun_induction dfa.scan i s limit src with
  | case1 => cases h
  | case2 i s limit src _ reason' src' hread =>
    cases h
    obtain ⟨hpending, hfault, rfl⟩ := Source.read_eq_failed hread
    refine ⟨0, by simp [hpending], Nat.zero_le _, fun m hm => absurd hm (Nat.not_lt_zero m), hfault, ?_⟩
    rw [← hpending]
    rfl
  | case3 => cases h
  | case4 => cases h
  | case5 i s limit src _ c src' hread next _ _ ih =>
    obtain ⟨n, hkept, hfails⟩ := ih h
    rcases Source.read_eq_char hread with ⟨rest, hpending, rfl⟩ | ⟨rest, hpending, hunread, hfault, rfl⟩
    · refine ⟨n, ?_, hfails.pending⟩
      rw [hkept, hpending]
      simp [Scan.advance]
    · refine ⟨n + 1, ?_, hfails.unread hunread hfault⟩
      rw [hkept, hpending, hunread]
      simp [Scan.advance]

/-- A match in which a read fails has added to the output all that was pending and the characters
that were read anew, and goes on behind them when it is used again. -/
theorem matchLimited_of_error (limit : Option Nat) (src : Source) (out : String) {reason : String}
    (h : (dfa.matchLimited limit src out).result = .error reason) :
    ∃ n, (dfa.matchLimited limit src out).extend out =
        out ++ String.ofList (src.pending ++ src.unread.take n) ∧
      src.FailsAfter n reason (dfa.matchLimited limit src out).source := by
  have hscan : (dfa.scan 0 dfa.scanStart limit src).1 = .failed reason → _ :=
    dfa.scan_of_failed 0 dfa.scanStart limit src
  unfold matchLimited at h ⊢
  generalize dfa.scan 0 dfa.scanStart limit src = outcome at hscan h ⊢
  obtain ⟨stop, s, src'⟩ := outcome
  cases stop with
  | failed reason' =>
    cases h
    obtain ⟨n, hkept, hfails⟩ := hscan rfl
    refine ⟨n, ?_, hfails⟩
    simp only at hkept
    simp only [MatchStep.extend, hkept]
    rfl
  | stuck =>
    simp only at h
    split at h <;> cases h
  | exhausted =>
    obtain ⟨_ | ⟨c, read⟩, length, states, best⟩ := s
    · cases h
    · cases best <;> cases h

end Dfa

/-! ## Sessions -/

/-- An output and the source from which it is filled. -/
structure Session where
  out : String
  source : Source

/-- A use of the two. -/
inductive Use where
  /-- A match by an automaton, of up to `limit` characters if there is a limit. -/
  | find (dfa : Dfa) (limit : Option Nat)
  /-- A read, whose character is added to the output. -/
  | read
  /-- The output from a byte offset on goes back to the source. -/
  | pushBack (start : Nat)

namespace Session

/-- All that was ever to be read, in its order. -/
def content (s : Session) : List Char :=
  s.out.toList ++ s.source.pending ++ s.source.unread

/-- The session after a use; none if the output is not to be cut at the offset given. -/
def perform (s : Session) : Use → Option Session
  | .find dfa limit =>
    let step := dfa.matchLimited limit s.source s.out
    some ⟨step.extend s.out, step.source⟩
  | .read =>
    match s.source.read with
    | (.char c, src) => some ⟨s.out.push c, src⟩
    | (_, src) => some ⟨s.out, src⟩
  | .pushBack start => (s.source.pushBack? s.out start).map fun parts => ⟨parts.1, parts.2⟩

/-- The session after several uses. -/
def performAll (s : Session) : List Use → Option Session
  | [] => some s
  | use :: rest => (s.perform use).bind fun s' => s'.performAll rest

/-- Whether a use respects the boundaries between characters: the output is cut only where it falls
apart into two texts. -/
def Allows (s : Session) : Use → Prop
  | .pushBack start => ∃ kept given : String, s.out = kept ++ given ∧ kept.utf8ByteSize = start
  | _ => True

/-- Whether each of several uses respects them. -/
def AllowsAll (s : Session) : List Use → Prop
  | [] => True
  | use :: rest => s.Allows use ∧ ∀ s', s.perform use = some s' → s'.AllowsAll rest

theorem content_eq (s : Session) : s.content = s.out.toList ++ s.source.remaining :=
  List.append_assoc _ _ _

theorem performAll_append (s : Session) (before after : List Use) :
    s.performAll (before ++ after) = (s.performAll before).bind fun s' => s'.performAll after := by
  induction before generalizing s with
  | nil => rfl
  | cons use before ih =>
    simp only [List.cons_append, performAll, Option.bind_assoc, ih]

theorem AllowsAll.of_append {s : Session} {before after : List Use}
    (h : s.AllowsAll (before ++ after)) : s.AllowsAll before := by
  induction before generalizing s with
  | nil => trivial
  | cons use before ih => exact ⟨h.1, fun s' hs' => ih (h.2 s' hs')⟩

/-! ### One use -/

variable {s s' : Session}

/-- A use is possible exactly if it respects the boundaries between characters. -/
theorem isSome_perform_iff (use : Use) : (s.perform use).isSome ↔ s.Allows use := by
  cases use with
  | find dfa limit => exact ⟨fun _ => trivial, fun _ => rfl⟩
  | read =>
    refine ⟨fun _ => trivial, fun _ => ?_⟩
    rw [perform]
    split <;> rfl
  | pushBack start =>
    rw [perform, Option.isSome_map, Source.pushBack?, Option.isSome_map, Option.isSome_iff_exists,
      Allows]
    constructor
    · intro h
      obtain ⟨⟨kept, given⟩, hcut⟩ := h
      exact ⟨kept, given, Offset.cut?_eq_some_iff.1 hcut⟩
    · intro h
      obtain ⟨kept, given, hcut⟩ := h
      exact ⟨(kept, given), Offset.cut?_eq_some_iff.2 hcut⟩

theorem content_find (dfa : Dfa) (limit : Option Nat) (h : s.perform (.find dfa limit) = some s') :
    s'.content = s.content := by
  cases h
  rw [content_eq, content_eq, ← dfa.added_matchLimited limit s.source s.out, MatchStep.extend,
    String.toList_append, String.toList_ofList, List.append_assoc]

theorem content_read (h : s.perform .read = some s') : s'.content = s.content := by
  have hkept := s.source.remaining_read
  rw [perform] at h
  split at h
  · next c src hread =>
    rw [hread] at hkept
    cases h
    rw [content_eq, content_eq, hkept, String.toList_push, List.append_assoc]
    rfl
  · next r src hne hread =>
    cases h
    rw [hread] at hkept
    rw [content_eq, content_eq]
    cases r with
    | char c => exact absurd rfl (hne c)
    | done => rw [hkept]
    | failed reason => rw [hkept]

theorem content_pushBack (start : Nat) (h : s.perform (.pushBack start) = some s') :
    s'.content = s.content := by
  rw [perform, Source.pushBack?, Option.map_map, Option.map_eq_some_iff] at h
  obtain ⟨⟨kept, given⟩, hcut, rfl⟩ := h
  obtain ⟨hout, -⟩ := Offset.cut?_eq_some_iff.1 hcut
  rw [content_eq, content_eq, hout, String.toList_append, List.append_assoc]
  exact congrArg _ (s.source.remaining_pushChars given.toList)

/-- No use loses, doubles or moves a character. -/
theorem content_perform (use : Use) (h : s.perform use = some s') : s'.content = s.content := by
  cases use with
  | find dfa limit => exact content_find dfa limit h
  | read => exact content_read h
  | pushBack start => exact content_pushBack start h

/-! ### All of them -/

theorem content_performAll (uses : List Use) (h : s.performAll uses = some s') :
    s'.content = s.content := by
  induction uses generalizing s with
  | nil =>
    cases h
    rfl
  | cons use uses ih =>
    obtain ⟨mid, hmid, hrest⟩ := Option.bind_eq_some_iff.1 h
    rw [ih hrest, content_perform use hmid]

/-- Uses that respect the boundaries between characters are never cut short. -/
theorem exists_performAll (uses : List Use) (h : s.AllowsAll uses) :
    ∃ s', s.performAll uses = some s' := by
  induction uses generalizing s with
  | nil => exact ⟨s, rfl⟩
  | cons use uses ih =>
    obtain ⟨mid, hmid⟩ := Option.isSome_iff_exists.1 ((isSome_perform_iff use).2 h.1)
    rw [performAll, hmid]
    exact ih (h.2 mid hmid)

/-- If the output is cut only at boundaries between characters, any uses in any order can be
performed, and after each of them the content of the session is what it was at the start. This holds
whichever reads fail. If one does within a match, all that was pending and what was read anew is in
the output, and the source goes on behind it. -/
theorem content_conserved (s : Session) (uses : List Use) (h : s.AllowsAll uses) :
    ∀ before, before <+: uses → ∃ mid, s.performAll before = some mid ∧ mid.content = s.content ∧
      ∀ dfa limit reason, (Dfa.matchLimited dfa limit mid.source mid.out).result = .error reason →
        ∃ n s', s.performAll (before ++ [.find dfa limit]) = some s' ∧
          s'.out = mid.out ++ String.ofList (mid.source.pending ++ mid.source.unread.take n) ∧
          mid.source.FailsAfter n reason s'.source ∧ s'.content = s.content := by
  intro before hbefore
  obtain ⟨after, rfl⟩ := hbefore
  obtain ⟨mid, hmid⟩ := exists_performAll before h.of_append
  have hcontent : mid.content = s.content := content_performAll before hmid
  refine ⟨mid, hmid, hcontent, fun dfa limit reason herror => ?_⟩
  obtain ⟨n, hout, hfails⟩ := dfa.matchLimited_of_error limit mid.source mid.out herror
  have hnext : mid.perform (.find dfa limit) =
      some ⟨(dfa.matchLimited limit mid.source mid.out).extend mid.out,
        (dfa.matchLimited limit mid.source mid.out).source⟩ := rfl
  refine ⟨n, _, ?_, hout, hfails, (content_perform _ hnext).trans hcontent⟩
  rw [performAll_append, hmid, Option.bind_some, performAll, hnext]
  rfl

/-- The second read fails, in the middle of a match. What that match has read goes back to the
source, and `é` is read once more. -/
theorem content_conserved_secondReadFails :
    let src : Source :=
      { unread := ['é', 'a', 'x'], fault := fun n => if n = 1 then some "down" else none }
    let s : Session := ⟨">", src⟩
    let uses : List Use := [.find Dfa.stopOrGoOn none, .pushBack 1, .find Dfa.stopOrGoOn (some 2)]
    (∃ mid, s.performAll uses = some mid ∧ mid.content = ['>', 'é', 'a', 'x']) ∧
      ∃ n s', s.performAll [.find Dfa.stopOrGoOn none] = some s' ∧
        s'.out = ">" ++ String.ofList (['é', 'a', 'x'].take n) ∧
        src.FailsAfter n "down" s'.source := by
  intro src s uses
  have herror : (Dfa.stopOrGoOn.matchLimited none src ">").result = .error "down" := by
    decide +kernel
  have hallows : s.AllowsAll uses := by
    refine ⟨trivial, fun s' hs' => ⟨?_, fun _ _ => ⟨trivial, fun _ _ => trivial⟩⟩⟩
    cases hs'
    exact ⟨">", _, rfl, by decide⟩
  obtain ⟨start, hstart, -, hfails⟩ := content_conserved s uses hallows [] List.nil_prefix
  cases hstart
  obtain ⟨mid, hmid, hcontent, -⟩ := content_conserved s uses hallows uses (List.prefix_refl uses)
  obtain ⟨n, s', hs', hout, hafter, -⟩ := hfails Dfa.stopOrGoOn none "down" herror
  have hwhole : s.content = ['>', 'é', 'a', 'x'] := by decide
  exact ⟨⟨mid, hmid, hcontent.trans hwhole⟩, n, s', hs', hout, hafter⟩

end Session

end LongestMatch
