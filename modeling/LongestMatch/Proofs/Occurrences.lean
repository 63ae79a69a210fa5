import LongestMatch.Proofs.Longest
import LongestMatch.Proofs.Sites
import LongestMatch.Proofs.Tracks

/-!
# What a reported span tells

A state of the compiled automaton stands for all the ways in which the text can have been read so
far, and its markers are those of all of them. Which spans are reported depends on these markers
alone (`Nfa.Met.mem_ofTrail_iff`). A span begins where an occurrence of its group may begin, and
runs on while occurrences are under way, whichever of them the match is made of
(`Pattern.Site.Traced`); so it need not be one of them. Where in the matched text occurrences do not
get into each other's way, it is (`Pattern.Site.Clear`, `Pattern.Site.Traced.mem_whole`).

* `Nfa.spans_exact` — which spans a match reports, by the roles that the automaton shows in the
  matched text. They are traced there, and those of groups that are clear in it belong to the
  language of their group; occurrences within which their group does not begin anew are not missed.
* `Nfa.span_runsOn_inRounds` — in `((!a+)b)*` the span of one round takes in the `b` behind the
  group.
-/

namespace LongestMatch

open scoped Computability

/-! ## Occurrences in a text -/

/-- The text between two positions, put together at one between them. -/
theorem drop_take_append_drop_take {b i e : Nat} (hbi : b ≤ i) (hie : i ≤ e) (w : List Char) :
    (w.take i).drop b ++ (w.take e).drop i = (w.take e).drop b := by
  have hsum : e - b = (i - b) + (e - i) := by omega
  have hback : b + (i - b) = i := Nat.add_sub_of_le hbi
  rw [List.drop_take, List.drop_take, List.drop_take, hsum, List.take_add, List.drop_drop, hback]

namespace Pattern

namespace Site

variable {s : Site} {L M : Language Char} {w : List Char} {b c e i : Nat}

/-- An occurrence of the group may begin at a position of a text. -/
def Begins (s : Site) (w : List Char) (b : Nat) : Prop :=
  b ≤ w.length ∧ w.take b ∈ s.before

/-- An occurrence that may begin at one position has got as far as another, with a text of a
language. -/
structure Reads (s : Site) (L : Language Char) (w : List Char) (b i : Nat) : Prop where
  begins : s.Begins w b
  le : b ≤ i
  le_length : i ≤ w.length
  mem : (w.take i).drop b ∈ L

/-- From one position to another the text may have to do with the group all along. -/
structure Traced (s : Site) (w : List Char) (b e : Nat) : Prop where
  le : b ≤ e
  le_length : e ≤ w.length
  /-- An occurrence may begin there, and none may strictly between the two positions. -/
  begins : s.Begins w b
  alone : ∀ i, b < i → i < e → ¬s.Begins w i
  /-- Everywhere some occurrence may be under way. -/
  underWay : s.skipped = false → ∀ i, b < i → i ≤ e → ∃ c, s.Reads s.inside w c i
  /-- Somewhere some occurrence may be complete. If this is so at the first position only, it is one
  that begins there. -/
  complete : s.skipped = false →
    ∃ f c, b ≤ f ∧ f ≤ e ∧ s.Reads s.whole w c f ∧ (f = b → c = b)

/-- Occurrences of the group do not get into each other's way in a text. -/
structure Clear (s : Site) (w : List Char) : Prop where
  kept : s.skipped = false
  /-- While one is under way no other may begin. -/
  apart : ∀ b c i, s.Reads s.inside w b i → s.Begins w c → b < c → i ≤ c
  /-- Once complete, one stays complete while it is under way. -/
  settled : ∀ b i j, s.Reads s.whole w b i → i ≤ j → s.Reads s.inside w b j →
    s.Reads s.whole w b j
  /-- If they may begin without a character, one that is complete just before the next one begins is
  still complete there. -/
  closed : s.direct = false → ∀ b i, s.Reads s.whole w b i →
    (∀ c, b < c → c ≤ i → ¬s.Begins w c) → s.Begins w (i + 1) → s.Reads s.whole w b (i + 1)

theorem reads_of_mem_mul (hi : i ≤ w.length) (h : w.take i ∈ s.before * L) :
    ∃ b, s.Reads L w b i := by
  obtain ⟨u, hu, v, hv, heq⟩ := h
  have heq : u ++ v = w.take i := heq
  have hlength : u.length + v.length = i := by
    rw [← List.length_append, heq, List.length_take, Nat.min_eq_left hi]
  have hle : u.length ≤ i := by omega
  refine ⟨u.length, ⟨hle.trans hi, ?_⟩, hle, hi, ?_⟩
  · have htake : w.take u.length = (w.take i).take u.length := by
      rw [List.take_take, Nat.min_eq_left hle]
    rwa [htake, ← heq, List.take_left]
  · rwa [← heq, List.drop_left]

theorem Reads.mono (h : s.Reads L w b i) (hle : ∀ v ∈ L, v ∈ M) : s.Reads M w b i :=
  ⟨h.begins, h.le, h.le_length, hle _ h.mem⟩

/-- What is complete is under way. -/
theorem mem_inside_of_mem_whole (hnil : s.direct = true → [] ∉ s.whole) :
    ∀ v ∈ s.whole, v ∈ s.inside := by
  intro v hv
  refine ⟨⟨[], by rwa [List.append_nil]⟩, fun hdirect => ?_⟩
  rintro rfl
  exact hnil hdirect hv

section Clear

variable (h : s.Traced w b e) (hc : s.Clear w)

include h hc

/-- Under way up to the last position is the occurrence that begins at the first one. -/
theorem Traced.reads_of_lt (hb : b < i) (hi : i < e) : s.Reads s.inside w b i := by
  obtain ⟨c, hread⟩ := h.underWay hc.kept i hb (Nat.le_of_lt hi)
  rcases Nat.lt_trichotomy c b with hlt | rfl | hgt
  · have := hc.apart c b i hread h.begins hlt
    omega
  · exact hread
  · exact absurd hread.begins (h.alone c hgt (hread.le.trans_lt hi))

/-- Somewhere the occurrence that begins at the first position is complete. -/
theorem Traced.exists_reads_whole (hnil : s.direct = true → [] ∉ s.whole) :
    ∃ f, b ≤ f ∧ f ≤ e ∧ s.Reads s.whole w b f := by
  obtain ⟨f, c, hbf, hfe, hread, hfirst⟩ := h.complete hc.kept
  rcases Nat.lt_trichotomy c b with hlt | rfl | hgt
  · -- one from before is complete here at the earliest, but then it has begun here
    have hle := hc.apart c b f (hread.mono (mem_inside_of_mem_whole hnil)) h.begins hlt
    have := hfirst (Nat.le_antisymm hle hbf)
    omega
  · exact ⟨f, hbf, hfe, hread⟩
  · -- only at the last position can another one begin, and there it is complete at once
    have hce : c = e := by
      by_contra hne
      exact h.alone c hgt (by have := hread.le; omega) hread.begins
    have hfc : f = c := by have := hread.le; omega
    have hempty : [] ∈ s.whole := by
      have hmem := hread.mem
      rwa [hfc, List.drop_of_length_le (List.length_take_le _ _)] at hmem
    refine ⟨b, Nat.le_refl b, h.le, h.begins, Nat.le_refl b, h.begins.1, ?_⟩
    rwa [List.drop_of_length_le (List.length_take_le _ _)]

/-- Between its positions there is a text of the group. -/
theorem Traced.mem_whole (hnil : s.direct = true → [] ∉ s.whole) :
    (w.take e).drop b ∈ s.whole := by
  obtain ⟨f, hbf, hfe, hread⟩ := h.exists_reads_whole hc hnil
  rcases Nat.eq_or_lt_of_le hfe with rfl | hfe
  · exact hread.mem
  have hbe : b < e := hbf.trans_lt hfe
  obtain ⟨c, hlast⟩ := h.underWay hc.kept e hbe (Nat.le_refl e)
  rcases Nat.lt_trichotomy c b with hlt | rfl | hgt
  · have := hc.apart c b e hlast h.begins hlt
    omega
  · exact (hc.settled c f e hread (Nat.le_of_lt hfe) hlast).mem
  · -- the next one begins at the last position, and is under way without a character
    obtain ⟨k, rfl⟩ : ∃ k, e = k + 1 := ⟨e - 1, by omega⟩
    have hce : c = k + 1 := by
      by_contra hne
      exact h.alone c hgt (by have := hlast.le; omega) hlast.begins
    subst hce
    have hdirect : s.direct = false := by
      by_contra hd
      refine hlast.mem.2 (Bool.eq_true_of_not_eq_false hd) ?_
      exact List.drop_of_length_le (List.length_take_le _ _)
    have hbefore : s.Reads s.whole w b k := by
      rcases Nat.eq_or_lt_of_le (Nat.lt_succ_iff.1 hbe) with rfl | hbk
      · rwa [Nat.le_antisymm (Nat.lt_succ_iff.1 hfe) hbf] at hread
      · exact hc.settled b f k hread (Nat.lt_succ_iff.1 hfe)
          (h.reads_of_lt hc hbk (Nat.lt_succ_self k))
    refine (hc.closed hdirect b k hbefore (fun d hd hdk => ?_) hlast.begins).mem
    exact h.alone d hd (Nat.lt_succ_of_le hdk)

end Clear

end Site

end Pattern

/-! ## What is shown of a site -/

theorem Presence.Goes.le_length {shows : Role → Language Char} {w : List Char} {b e : Nat}
    (h : (Presence.along shows w).Goes b e) : e ≤ w.length := by
  rcases Nat.eq_or_lt_of_le h.le with rfl | hlt
  · exact h.begins.1
  · exact (h.inner e hlt (Nat.le_refl e)).1

namespace Pattern

namespace Site

section Shown

variable {s : Site} {shows : Role → Language Char} {w : List Char} {b e i : Nat}
  (hs : s.Shown shows)

include hs

theorem Shown.start_iff :
    Presence.along shows w .start i ↔ s.Begins w i ∧ ∃ v, v ∈ s.whole := by
  rw [Presence.along, hs.mem_start, Begins, and_assoc]

/-- Where an occurrence of the group is read, it begins. -/
theorem Shown.start_of_reads (h : s.Reads s.whole w b e) : Presence.along shows w .start b :=
  hs.start_iff.2 ⟨h.begins, _, h.mem⟩

/-- It is inside the group, from behind where it begins to where it is complete. -/
theorem Shown.inner_of_reads (h : s.Reads s.whole w b e) (hbi : b < i) (hie : i ≤ e) :
    Presence.along shows w .inner i := by
  have hi : i ≤ w.length := hie.trans h.le_length
  have hbegun : (w.take i).drop b ∈ s.begun := by
    refine ⟨(w.take e).drop i, ?_⟩
    rw [drop_take_append_drop_take (Nat.le_of_lt hbi) hie]
    exact h.mem
  have hne : (w.take i).drop b ≠ [] := by
    apply List.ne_nil_of_length_pos
    rw [List.length_drop, List.length_take]
    omega
  have hinner : w.take b ++ (w.take i).drop b ∈ shows .inner :=
    hs.mem_inner _ h.begins.2 _ hbegun hne
  have hjoin : w.take b ++ (w.take i).drop b = w.take i :=
    drop_take_append_drop_take (Nat.zero_le b) (Nat.le_of_lt hbi) w
  exact ⟨hi, hjoin ▸ hinner⟩

/-- And there it is complete. -/
theorem Shown.stop_of_reads (h : s.Reads s.whole w b e) : Presence.along shows w .stop e := by
  have hjoin : w.take b ++ (w.take e).drop b = w.take e :=
    drop_take_append_drop_take (Nat.zero_le b) h.le w
  exact ⟨h.le_length, hjoin ▸ hs.mem_stop _ h.begins.2 _ h.mem⟩

/-- What is traced by the roles is traced in the text. -/
theorem Shown.traced (h : (Presence.along shows w).Traced b e) : s.Traced w b e := by
  obtain ⟨hbegins, hwhole⟩ := hs.start_iff.1 h.begins
  refine ⟨h.le, h.toGoes.le_length, hbegins, fun i hbi hie hanew => ?_, fun hskip i hbi hie => ?_,
    fun hskip => ?_⟩
  · exact h.alone i hbi hie (hs.start_iff.2 ⟨hanew, hwhole⟩)
  · obtain ⟨hi, hinner⟩ := h.inner i hbi hie
    exact reads_of_mem_mul hi (hs.of_inner hskip _ hinner)
  · obtain ⟨f, hbf, hfe, ⟨hf, hstop⟩, hfirst⟩ := h.completes
    obtain ⟨c, hread⟩ := reads_of_mem_mul hf (hs.of_stop hskip _ hstop)
    refine ⟨f, c, hbf, hfe, hread, fun heq => ?_⟩
    -- one that began earlier would have been live where the span begins
    subst heq
    by_contra hne
    have hlt : c < f := Nat.lt_of_le_of_ne hread.le hne
    exact hfirst rfl ⟨c, hlt, hs.start_of_reads hread,
      fun i hci hif => hs.inner_of_reads hread hci (Nat.le_of_lt hif)⟩

/-- Where an occurrence with at least a character may be read, and the group does not begin anew
within it, the roles report what begins there and covers the occurrence. -/
theorem Shown.exists_reports (h : s.Reads s.whole w b e) (hlt : b < e)
    (halone : ∀ i, b < i → i ≤ e → ¬s.Begins w i) :
    ∃ f, e ≤ f ∧ (Presence.along shows w).Reports b f := by
  have hanew : ∀ i, b < i → i ≤ e → ¬Presence.along shows w .start i :=
    fun i hbi hie hstart => halone i hbi hie (hs.start_iff.1 hstart).1
  have hend : ¬Presence.along shows w .inner (w.length + 1) :=
    fun hinner => Nat.not_succ_le_self _ hinner.1
  exact Presence.exists_reports (hs.start_of_reads h) hlt
    (fun i hbi hie => hs.inner_of_reads h hbi hie) hanew (hs.stop_of_reads h) h.le_length hend

end Shown

end Site

end Pattern

/-! ## The spans of a match -/

/-- Spans are reported of matches only. -/
theorem Dfa.matched_of_mem_spans {dfa : Dfa} {limit : Option Nat} {src : Source} {out : String}
    {span : Span} (h : span ∈ (dfa.matchLimited limit src out).spans) :
    ∃ a, (dfa.matchLimited limit src out).result = .ok (.matched a) := by
  unfold matchLimited at h ⊢
  split at h
  · cases h
  · cases h
  · simp only at h ⊢
    split at h
    · cases h
    · next best hbest => exact ⟨best.action, rfl⟩

/-- A span of an output marks out what stands between two positions of the text at its end. -/
structure Span.Delimits (span : Span) (out : String) (w : List Char) (b e : Nat) : Prop where
  start_eq : span.start = out.utf8ByteSize + (String.ofList (w.take b)).utf8ByteSize
  stop_eq : span.stop = out.utf8ByteSize + (String.ofList (w.take e)).utf8ByteSize
  text_eq : span.text? (out ++ String.ofList w) = some (String.ofList ((w.take e).drop b))

theorem Span.delimits_of_offsets {span : Span} {out : String} {w : List Char} {b e : Nat}
    (hle : b ≤ e) (hstart : span.start = out.utf8ByteSize + (String.ofList (w.take b)).utf8ByteSize)
    (hstop : span.stop = out.utf8ByteSize + (String.ofList (w.take e)).utf8ByteSize) :
    span.Delimits out w b e := by
  refine ⟨hstart, hstop, ?_⟩
  have htake : w.take b ++ (w.take e).drop b = w.take e :=
    drop_take_append_drop_take (Nat.zero_le b) hle w
  have hbefore : (out ++ String.ofList (w.take b)).utf8ByteSize = span.start := by
    rw [String.utf8ByteSize_append, hstart]
  have hwithin : span.start + (String.ofList ((w.take e).drop b)).utf8ByteSize = span.stop := by
    rw [hstart, hstop, Nat.add_assoc, ← String.utf8ByteSize_append, ← String.ofList_append, htake]
  have hwhole : out ++ String.ofList w = out ++ String.ofList (w.take b) ++
      String.ofList ((w.take e).drop b) ++ String.ofList (w.drop e) := by
    have hparts : String.ofList w = String.ofList (w.take b) ++
        String.ofList ((w.take e).drop b) ++ String.ofList (w.drop e) := by
      rw [← String.ofList_append, htake, ← String.ofList_append, List.take_append_drop]
    rw [hparts]
    simp only [String.append_assoc]
  rw [Span.text?, hwhole, ← hwithin, ← hbefore]
  exact Offset.slice?_append _ _ _

namespace Nfa

open Pattern

variable {config : Config} {pattern text : String} {nfa : Nfa} {o : Outline} {dfa : Dfa}
  {a : ActionId} {catalog : Catalog} {failPolicy : FailPolicy} {eofAction : Option ActionId}
  {group b e : Nat} {out : String} {w : List Char} {way : List (Nat × List Marker)} {span : Span}
  {spans : List Span}

theorem Met.ofGroup_eq (h : nfa.Met out.utf8ByteSize w way) (group : Nat) :
    Span.ofGroup (Span.ofTrail [] way) group = OpenSpan.run none (Track.ofWay group way) :=
  Span.ofGroup_ofTrail List.Pairwise.nil h.ordered

/-- The spans read off a way are those that the roles of their group report. -/
theorem Met.mem_ofTrail_iff (h : nfa.Met out.utf8ByteSize w way) : span ∈ Span.ofTrail [] way ↔
    ∃ b e, span.Delimits out w b e ∧ (Presence.along (nfa.showing span.group) w).Reports b e := by
  have hself : span ∈ Span.ofTrail [] way ↔
      span ∈ OpenSpan.run none (Track.ofWay span.group way) := by
    rw [← h.ofGroup_eq, Span.ofGroup, List.mem_filter, decide_eq_true_iff, eq_self, and_true]
  constructor
  · intro hspan
    obtain ⟨b, e, hstart, hstop, hreports⟩ :=
      (Track.exists_mem_run_iff h.proper_track).1 ⟨span, hself.1 hspan, rfl, rfl⟩
    rw [h.has_eq] at hreports
    rw [h.getElem?_fst _ hreports.begins.1] at hstart
    rw [h.getElem?_fst _ hreports.toGoes.le_length] at hstop
    exact ⟨b, e, Span.delimits_of_offsets hreports.le (Option.some.inj hstart).symm
      (Option.some.inj hstop).symm, hreports⟩
  · rintro ⟨b, e, hdelimits, hreports⟩
    have hstart := h.getElem?_fst span.group hreports.begins.1
    have hstop := h.getElem?_fst span.group hreports.toGoes.le_length
    rw [← hdelimits.start_eq] at hstart
    rw [← hdelimits.stop_eq] at hstop
    rw [← h.has_eq] at hreports
    obtain ⟨other, hother, hbegins, hends⟩ :=
      (Track.exists_mem_run_iff h.proper_track).2 ⟨b, e, hstart, hstop, hreports⟩
    -- it is of the same group, too
    have hmem := hother
    rw [← h.ofGroup_eq] at hmem
    have hsame : other.group = span.group := of_decide_eq_true (List.mem_filter.1 hmem).2
    obtain rfl : other = span := by
      cases other
      cases span
      exact Span.mk.injEq .. ▸ ⟨hbegins, hends, hsame⟩
    exact hself.2 hother

/-- What is reported belongs to a group of the automaton. -/
theorem lt_of_goes (ho : Outlined nfa o) (h : (Presence.along (nfa.showing group) w).Goes b e) :
    group < o.sites.length := by
  by_contra hge
  rw [← ho.nextGroup_eq, Nat.not_lt] at hge
  have hbegins := h.begins.2
  rw [showing_of_le ho.clean hge] at hbegins
  exact hbegins

/-! ## Spans computed -/

/-- A text of the language is matched as a whole. -/
theorem matchNext_of_mem_language (hn : nfa.WellFormed) (hsilent : nfa.Silent)
    (hdfa : (nfa.addAction a).compile catalog failPolicy eofAction = .ok dfa)
    (hmem : text.toList ∈ nfa.language) (hne : text.toList ≠ []) :
    (dfa.matchNext (Source.ofString text) "").result = .ok (.matched a) ∧
      (dfa.matchNext (Source.ofString text) "").added = text.toList := by
  have haction : dfa.matchWhole? text = some a := by
    rw [matchWhole?_compile hdfa, resolution_addAction hsilent hn, if_pos hmem]
  have hlongest := (Dfa.matchWhole?_eq_some_iff text).1 haction
  obtain ⟨hresult, hextend, -⟩ :=
    Dfa.matchLimited_of_longestPrefix (Source.reliable_ofString text) (.inr hne) hlongest ""
  refine ⟨hresult, ?_⟩
  have htext : String.ofList (dfa.matchLimited none (Source.ofString text) "").added = text := by
    simpa [MatchStep.extend, Source.remaining_ofString] using hextend
  exact String.toList_ofList.symm.trans (congrArg String.toList htext)

/-- If there is no more than a single group, the spans are those of its track. -/
theorem Met.ofTrail_eq (h : nfa.Met out.utf8ByteSize w way) (ho : Outlined nfa o)
    (hgroups : nfa.nextGroup ≤ 1) :
    Span.ofTrail [] way = OpenSpan.run none (nfa.trackOf 0 out.utf8ByteSize w) := by
  have hself : Span.ofGroup (Span.ofTrail [] way) 0 = Span.ofTrail [] way := by
    apply List.filter_eq_self.2
    intro span hspan
    obtain ⟨_, _, -, hreports⟩ := h.mem_ofTrail_iff.1 hspan
    have hlt := lt_of_goes ho hreports.toGoes
    rw [← ho.nextGroup_eq] at hlt
    exact decide_eq_true (by omega)
  rw [← hself, h.ofGroup_eq, h.ofWay_eq]

/-- An automaton with no more than a single group takes a text as a whole, and these are the spans
that its group has then. -/
def Yields (nfa : Nfa) (text : String) (spans : List Span) : Prop :=
  nfa.nextGroup ≤ 1 ∧ nfa.last ∈ nfa.walk (some nfa.last) text.toList ∧
    OpenSpan.run none (nfa.trackOf 0 0 text.toList) = spans

instance (nfa : Nfa) (text : String) (spans : List Span) : Decidable (nfa.Yields text spans) :=
  inferInstanceAs (Decidable (_ ∧ _ ∧ _))

/-- They are those that are reported. -/
theorem Yields.spans_eq (h : nfa.Yields text spans) (ho : Outlined nfa o) (hne : text.toList ≠ [])
    (hdfa : (nfa.addAction a).compile catalog failPolicy eofAction = .ok dfa) :
    (dfa.matchNext (Source.ofString text) "").result = .ok (.matched a) ∧
      (dfa.matchNext (Source.ofString text) "").added = text.toList ∧
      (dfa.matchNext (Source.ofString text) "").spans = spans := by
  have hn := ho.speaks.wellFormed
  have hsilent := ho.speaks.silent
  obtain ⟨hgroups, hlast, hspans⟩ := h
  rw [walk_eq_keptAt] at hlast
  obtain ⟨hresult, hadded⟩ :=
    matchNext_of_mem_language hn hsilent hdfa (mem_keptAt.1 hlast).1.2 hne
  obtain ⟨-, -, way, hmet, hway⟩ := exists_met_of_match hn ho.clean hsilent hdfa hresult
  replace hmet : nfa.Met "".utf8ByteSize text.toList way := hadded ▸ hmet
  exact ⟨hresult, hadded, hway.trans ((hmet.ofTrail_eq ho hgroups).trans hspans)⟩

/-- What the automaton of a pattern yields for a text can be computed. -/
theorem exists_match (pattern text : String) (spans : List Span)
    (h : (ofPattern {} pattern).toOption.any (fun nfa => nfa.Yields text spans))
    (hne : text.toList ≠ []) (a : ActionId) (catalog : Catalog) (failPolicy : FailPolicy)
    (eofAction : Option ActionId) :
    ∃ nfa, ofPattern {} pattern = .ok nfa ∧
      ∃ dfa, (nfa.addAction a).compile catalog failPolicy eofAction = .ok dfa ∧
        (dfa.matchNext (Source.ofString text) "").result = .ok (.matched a) ∧
        (dfa.matchNext (Source.ofString text) "").added = text.toList ∧
        (dfa.matchNext (Source.ofString text) "").spans = spans := by
  cases hpattern : ofPattern {} pattern with
  | error e =>
    rw [hpattern] at h
    cases h
  | ok nfa =>
    rw [hpattern] at h
    obtain ⟨t, ht⟩ := exists_tree_of_fault (exists_builder_of_ofPattern hpattern).1
    have ho := outlined_ofPattern hpattern ht
    obtain ⟨dfa, hdfa⟩ := exists_compile_addAction ho.speaks.silent ho.speaks.wellFormed a catalog
      failPolicy eofAction
    exact ⟨nfa, rfl, dfa, hdfa, (of_decide_eq_true h).spans_eq ho hne hdfa⟩

/-- The option with the group in it is passed over, and the span reported has no text. -/
example : (ofPattern {} "(!a)?b").toOption.any fun nfa => nfa.Yields "b" [⟨0, 0, 0⟩] := by
  decide +kernel

/-- What the option can take may begin the group, too. The group begins anew behind it, and its span
has lost the `a`. -/
example : (ofPattern {} "a?(!ab)").toOption.any fun nfa => nfa.Yields "ab" [⟨1, 2, 0⟩] := by
  decide +kernel

/-! ## A group behind an option -/

/-- The pattern `a?(!b)`. -/
def behindOption : Tree :=
  .seq (.unary .optional (.plain 'a')) (.group true (.plain 'b'))

theorem behindOption_of : behindOption.Of "a?(!b)" := by
  have ha : Derives .factor [.plain 'a', .plain '?'] (.unary .optional (.plain 'a')) :=
    .unary .optional (.atom (.plain (by decide)))
  have hb : Derives .factor [.plain 'b'] (.plain 'b') := .atom (.plain (by decide))
  have hgroup : Derives .atom _ (.group true (.plain 'b')) := .report (.sequence (.factor hb))
  exact ⟨_, spells_plain (by decide), .sequence (.seq (.factor ha) (.atom hgroup))⟩

/-- The site of the group. -/
def siteBehindOption : Site :=
  { before := {['a']} + 1, whole := {['b']}, direct := true }

theorem sites_behindOption : behindOption.sites = [siteBehindOption] := by
  simp [behindOption, Tree.sites, Tree.direct, outlines, siteBehindOption, Site.after,
    Tree.language, Unary.language]

theorem mem_inside_siteBehindOption {u : List Char} :
    u ∈ siteBehindOption.inside ↔ u ≠ [] ∧ u <+: ['b'] := by
  constructor
  · rintro ⟨⟨y, hy⟩, hne⟩
    exact ⟨hne rfl, y, hy⟩
  · rintro ⟨hne, y, hy⟩
    exact ⟨⟨y, hy⟩, fun _ => hne⟩

/-- In `ab` nothing of the group can be read but the `b` behind the option. -/
theorem clear_siteBehindOption : siteBehindOption.Clear ['a', 'b'] := by
  have hbegins : ∀ c, siteBehindOption.Begins ['a', 'b'] c → c < 2 := by
    intro c hc
    obtain ⟨hle, hbefore⟩ := hc
    have hle : c ≤ 2 := hle
    by_contra hge
    obtain rfl : c = 2 := by omega
    rcases hbefore with heq | heq
    · cases (heq : ['a', 'b'] = ['a'])
    · cases (heq : ['a', 'b'] = [])
  have hreads : ∀ b i,
      siteBehindOption.Reads siteBehindOption.inside ['a', 'b'] b i → b = 1 ∧ i = 2 := by
    intro b i hread
    have hb := hbegins b hread.begins
    have hi : i ≤ 2 := hread.le_length
    have hmem := mem_inside_siteBehindOption.1 hread.mem
    obtain rfl | rfl : b = 0 ∨ b = 1 := by omega
    · obtain rfl | rfl | rfl : i = 0 ∨ i = 1 ∨ i = 2 := by omega
      all_goals simp at hmem
    · obtain rfl | rfl | rfl : i = 0 ∨ i = 1 ∨ i = 2 := by omega
      all_goals simp at hmem ⊢
  have hnil : siteBehindOption.direct = true → [] ∉ siteBehindOption.whole := by
    intro _ hnil
    cases hnil
  refine ⟨rfl, fun b c i hread hc hlt => ?_, fun b i j hread hle hlater => ?_, fun hdirect => ?_⟩
  · have := hbegins c hc
    have := hreads b i hread
    omega
  · obtain ⟨-, rfl⟩ := hreads b j hlater
    obtain ⟨-, rfl⟩ := hreads b i (hread.mono (Site.mem_inside_of_mem_whole hnil))
    exact hread
  · cases hdirect

/-- The catalog of tags that clash. -/
def clashing : Catalog :=
  ⟨fun _ => 0, fun _ _ => .clash, fun a => [a], fun _ => ""⟩

/-- In `ab` the `b` is reported. -/
theorem exists_match_behindOption :
    ∃ nfa, ofPattern {} "a?(!b)" = .ok nfa ∧
      ∃ dfa, (nfa.addAction 7).compile clashing .copy none = .ok dfa ∧
        (dfa.matchNext (Source.ofString "ab") "").result = .ok (.matched 7) ∧
        (dfa.matchNext (Source.ofString "ab") "").added = ['a', 'b'] ∧
        (dfa.matchNext (Source.ofString "ab") "").spans = [⟨1, 2, 0⟩] :=
  exists_match _ _ _ (by decide +kernel) (by decide) 7 clashing .copy none

/-! ## The whole of it -/

/-- The spans that a match reports are exactly those that the roles shown in the matched text
report, group by group. Each group that the tree of the pattern lists has a site there, whose texts
are the language of the group, and the automaton shows this site by the number of the group. So each
span marks out a part of the matched text that is traced at its site. If the site is clear in the
matched text, this part belongs to the language of the group. In the other direction, where an
occurrence of a group may be read that has a character, and within which the group does not begin
anew, a span is reported that begins there and covers it. -/
theorem spans_exact (h : ofPattern config pattern = .ok nfa) :
    (∃ t : Tree, t.Of pattern) ∧
      ∀ t : Tree, t.Of pattern → t.sites.map Site.whole = t.groups.map Tree.language ∧
        (∀ (group : Nat) (site : Site), t.sites[group]? = some site →
          site.Shown (nfa.showing group)) ∧
        ∀ (action : ActionId) (catalog : Catalog) (failPolicy : FailPolicy)
          (eofAction : Option ActionId),
          ∃ dfa, (nfa.addAction action).compile catalog failPolicy eofAction = .ok dfa ∧
            ∀ (limit : Option Nat) (src : Source) (out : String),
              let step := dfa.matchLimited limit src out
              (∀ span, span ∈ step.spans ↔ step.result = .ok (.matched action) ∧
                ∃ b e, span.Delimits out step.added b e ∧
                  (Presence.along (nfa.showing span.group) step.added).Reports b e) ∧
              (∀ span ∈ step.spans, ∃ site b e, t.sites[span.group]? = some site ∧
                span.Delimits out step.added b e ∧
                (Presence.along (nfa.showing span.group) step.added).Reports b e ∧
                site.Traced step.added b e ∧
                (site.Clear step.added → (step.added.take e).drop b ∈ site.whole)) ∧
              (step.result = .ok (.matched action) → ∀ group site, t.sites[group]? = some site →
                ∀ b f, b < f → site.Reads site.whole step.added b f →
                  (∀ i, b < i → i ≤ f → ¬site.Begins step.added i) →
                    ∃ span ∈ step.spans, span.group = group ∧
                      ∃ e, f ≤ e ∧ span.Delimits out step.added b e) := by
  constructor
  · exact exists_tree_of_fault (exists_builder_of_ofPattern h).1
  · intro t htree
    have houtlined := outlined_ofPattern h htree
    have hn := houtlined.speaks.wellFormed
    have hsilent := houtlined.speaks.silent
    refine ⟨htree.map_whole_sites, houtlined.shown, fun action catalog failPolicy eofAction => ?_⟩
    obtain ⟨dfa, hdfa⟩ := exists_compile_addAction hsilent hn action catalog failPolicy eofAction
    refine ⟨dfa, hdfa, ?_⟩
    intro limit src out step
    have hexact : ∀ span, span ∈ step.spans ↔ step.result = .ok (.matched action) ∧
        ∃ b e, span.Delimits out step.added b e ∧
          (Presence.along (nfa.showing span.group) step.added).Reports b e := by
      intro span
      by_cases hmatched : ∃ a, step.result = .ok (.matched a)
      · obtain ⟨a, hmatched⟩ := hmatched
        obtain ⟨rfl, -, way, hway, hspans⟩ :=
          exists_met_of_match hn houtlined.clean hsilent hdfa hmatched
        rw [hspans, hway.mem_ofTrail_iff, and_iff_right hmatched]
      · exact iff_of_false (fun hspan => hmatched (Dfa.matched_of_mem_spans hspan))
          fun hspan => hmatched ⟨action, hspan.1⟩
    refine ⟨hexact, fun span hspan => ?_, fun hmatched group site hsite b f hlt hread halone => ?_⟩
    · obtain ⟨-, b, e, hdelimits, hreports⟩ := (hexact span).1 hspan
      have hsite := List.getElem?_eq_getElem (lt_of_goes houtlined hreports.toGoes)
      have hshown := houtlined.shown _ _ hsite
      have htraced := hshown.traced hreports.toTraced
      refine ⟨_, b, e, hsite, hdelimits, hreports, htraced, fun hclear => ?_⟩
      exact htraced.mem_whole hclear hshown.nil_notMem
    · obtain ⟨e, hfe, hreports⟩ := (houtlined.shown _ _ hsite).exists_reports hread hlt halone
      have hdelimits : Span.Delimits ⟨_, _, group⟩ out step.added b e :=
        Span.delimits_of_offsets hreports.le rfl rfl
      exact ⟨_, (hexact _).2 ⟨hmatched, b, e, hdelimits, hreports⟩, rfl, e, hfe, hdelimits⟩

/-- Behind an option a `b` is found where it is. -/
theorem spans_exact_behindOption :
    ∃ nfa, ofPattern {} "a?(!b)" = .ok nfa ∧
      ∃ dfa, (nfa.addAction 7).compile clashing .copy none = .ok dfa ∧
        let step := dfa.matchNext (Source.ofString "ab") ""
        step.result = .ok (.matched 7) ∧ step.spans = [⟨1, 2, 0⟩] ∧
          siteBehindOption.Clear step.added ∧
          ∃ b e, Span.Delimits ⟨1, 2, 0⟩ "" step.added b e ∧
            (Presence.along (nfa.showing 0) step.added).Reports b e ∧
            (step.added.take e).drop b ∈ siteBehindOption.whole := by
  obtain ⟨nfa, hpattern, dfa, hdfa, hresult, hadded, hreported⟩ := exists_match_behindOption
  obtain ⟨-, hspans⟩ := spans_exact hpattern
  obtain ⟨-, -, hspans⟩ := hspans _ behindOption_of
  obtain ⟨compiled, hcompiled, htold⟩ := hspans 7 clashing .copy none
  obtain rfl : dfa = compiled := Except.ok.inj (hdfa.symm.trans hcompiled)
  refine ⟨nfa, hpattern, dfa, hdfa, ?_⟩
  intro step
  have hclear : siteBehindOption.Clear step.added := hadded ▸ clear_siteBehindOption
  have hspan : ⟨1, 2, 0⟩ ∈ step.spans := by
    rw [hreported]
    exact List.mem_singleton_self _
  obtain ⟨-, htold, -⟩ := htold none (Source.ofString "ab") ""
  obtain ⟨site, b, e, hsite, hdelimits, hreports, -, hmem⟩ := htold ⟨1, 2, 0⟩ hspan
  rw [sites_behindOption] at hsite
  obtain rfl : siteBehindOption = site := Option.some.inj hsite
  exact ⟨hresult, hreported, hclear, b, e, hdelimits, hreports, hmem hclear⟩

/-! ## Spans that are no occurrences -/

/-- The pattern `((!a+)b)*`. -/
def inRounds : Tree :=
  .unary .star (.group false (.seq (.group true (.unary .plus (.plain 'a'))) (.plain 'b')))

theorem inRounds_of : inRounds.Of "((!a+)b)*" := by
  have ha : Derives .factor [.plain 'a'] (.plain 'a') := .atom (.plain (by decide))
  have hb : Derives .factor [.plain 'b'] (.plain 'b') := .atom (.plain (by decide))
  have hgroup : Derives .atom _ (.group true (.unary .plus (.plain 'a'))) :=
    .report (.sequence (.factor (.unary .plus ha)))
  have hround : Derives .sequence _ (.seq (.group true (.unary .plus (.plain 'a'))) (.plain 'b')) :=
    .seq (.factor (.atom hgroup)) hb
  exact ⟨_, spells_plain (by decide),
    .sequence (.factor (.unary .star (.atom (.group (.sequence hround)))))⟩

/-- Behind a round the group may begin again, and is entered without a character. So the span of the
round before, which was complete, runs on up to there. It has `ab`, which the group never
matches. -/
theorem span_runsOn_inRounds :
    ∃ nfa, ofPattern {} "((!a+)b)*" = .ok nfa ∧
      ∃ dfa, (nfa.addAction 7).compile clashing .copy none = .ok dfa ∧
        let step := dfa.matchNext (Source.ofString "abab") ""
        step.result = .ok (.matched 7) ∧ step.spans = [⟨0, 2, 0⟩, ⟨2, 4, 0⟩] ∧
          Span.text? ⟨0, 2, 0⟩ (step.extend "") = some "ab" ∧
          ∃ t : Tree, t.Of "((!a+)b)*" ∧ ∃ inner, t.groups[0]? = some inner ∧
            ['a', 'b'] ∉ inner.language := by
  obtain ⟨nfa, hpattern, dfa, hdfa, hresult, hadded, hreported⟩ :=
    exists_match "((!a+)b)*" "abab" [⟨0, 2, 0⟩, ⟨2, 4, 0⟩] (by decide +kernel) (by decide) 7
      clashing .copy none
  have htext : Span.text? ⟨0, 2, 0⟩
      ((dfa.matchNext (Source.ofString "abab") "").extend "") = some "ab" := by
    rw [MatchStep.extend, hadded]
    decide
  have hnot : ['a', 'b'] ∉ (Tree.unary .plus (.plain 'a')).language := by
    rintro ⟨_, rfl, v, hv, heq⟩
    obtain ⟨vs, rfl, hvs⟩ := Language.mem_kstar.1 hv
    have hrest : vs.flatten = ['b'] := (List.cons.inj heq).2
    obtain ⟨u, hu, hb⟩ := List.mem_flatten.1 (hrest ▸ List.mem_singleton_self 'b')
    obtain rfl : u = ['a'] := hvs u hu
    exact absurd hb (by decide)
  exact ⟨nfa, hpattern, dfa, hdfa, hresult, hreported, htext, _, inRounds_of, _, rfl, hnot⟩

end Nfa

end LongestMatch
