import LongestMatch.Proofs.Outlines
import LongestMatch.Proofs.Roles

/-!
# Automata that show the sites of a pattern

An automaton shows the roles of a group where the site of the group says (`Site.Shown`). Each
operator goes along with its operation on outlines, so the automaton of a pattern shows the sites of
its tree.

* `describes_outlines` — the operators make of automata with outlines one with what becomes of them.
* `outlined_ofPattern` — the automaton of a pattern has the language and the sites of its tree.
-/

namespace LongestMatch

open scoped Computability

namespace Pattern

/-! ## Sites and what is shown -/

namespace Site

variable {s : Site} {shows shows' : Role → Language Char} {L : Language Char}

/-- The roles of a group are shown where its site says. If the group may be skipped, it may seem to
go on and to end elsewhere, too. -/
structure Shown (s : Site) (shows : Role → Language Char) : Prop where
  mem_start : ∀ w, w ∈ shows .start ↔ w ∈ s.before ∧ ∃ v, v ∈ s.whole
  mem_inner : ∀ u ∈ s.before, ∀ v ∈ s.begun, v ≠ [] → u ++ v ∈ shows .inner
  mem_stop : ∀ u ∈ s.before, ∀ v ∈ s.whole, u ++ v ∈ shows .stop
  of_inner : s.skipped = false → ∀ w ∈ shows .inner, w ∈ s.before * s.inside
  of_stop : s.skipped = false → ∀ w ∈ shows .stop, w ∈ s.before * s.whole
  nil_notMem : s.direct = true → [] ∉ s.whole

theorem mem_mul_mul {M before K : Language Char} (h : ∀ w ∈ M, w ∈ before * K) :
    ∀ w ∈ L * M, w ∈ L * before * K := by
  intro w hw
  obtain ⟨u, hu, v, hv, rfl⟩ := hw
  rw [mul_assoc]
  exact ⟨u, hu, v, h v hv, rfl⟩

theorem Shown.after (h : s.Shown shows) (L : Language Char) :
    (s.after L).Shown fun role => L * shows role := by
  refine ⟨fun w => ?_, ?_, ?_, fun hs => ?_, fun hs => ?_, h.nil_notMem⟩
  · constructor
    · intro hw
      obtain ⟨u, hu, v, hv, rfl⟩ := hw
      obtain ⟨hv, hwhole⟩ := (h.mem_start v).1 hv
      exact ⟨⟨u, hu, v, hv, rfl⟩, hwhole⟩
    · intro hw
      obtain ⟨⟨u, hu, v, hv, rfl⟩, hwhole⟩ := hw
      exact ⟨u, hu, v, (h.mem_start v).2 ⟨hv, hwhole⟩, rfl⟩
  · rintro _ ⟨t, ht, u, hu, rfl⟩ v hv hne
    exact ⟨t, ht, u ++ v, h.mem_inner u hu v hv hne, (List.append_assoc _ _ _).symm⟩
  · rintro _ ⟨t, ht, u, hu, rfl⟩ v hv
    exact ⟨t, ht, u ++ v, h.mem_stop u hu v hv, (List.append_assoc _ _ _).symm⟩
  · exact mem_mul_mul (h.of_inner hs)
  · exact mem_mul_mul (h.of_stop hs)

theorem Shown.goOn (h : s.Shown shows) : s.goOn.Shown shows :=
  ⟨h.mem_start, h.mem_inner, h.mem_stop, h.of_inner, h.of_stop, h.nil_notMem⟩

/-- In an option more may be shown of a group that closes, but not that it starts. -/
theorem Shown.pass (h : s.Shown shows) (hle : ∀ role, ∀ w ∈ shows role, w ∈ shows' role)
    (hstart : shows' .start = shows .start) (heq : s.closes = false → shows' = shows) :
    s.pass.Shown shows' := by
  have hsame : s.pass.skipped = false → s.skipped = false ∧ shows' = shows := by
    intro hs
    obtain ⟨hskip, hcloses⟩ := Bool.or_eq_false_iff.1 hs
    exact ⟨hskip, heq hcloses⟩
  refine ⟨fun w => ?_, fun u hu v hv hne => ?_, fun u hu v hv => ?_, fun hs => ?_, fun hs => ?_,
    h.nil_notMem⟩
  · rw [hstart]
    exact h.mem_start w
  · exact hle .inner _ (h.mem_inner u hu v hv hne)
  · exact hle .stop _ (h.mem_stop u hu v hv)
  · obtain ⟨hskip, rfl⟩ := hsame hs
    exact h.of_inner hskip
  · obtain ⟨hskip, rfl⟩ := hsame hs
    exact h.of_stop hskip

end Site

/-- The automaton has the language of the outline and shows its sites. -/
structure Outlined (nfa : Nfa) (o : Outline) : Prop where
  speaks : nfa.Speaks o.language
  clean : nfa.Clean
  nextGroup_eq : nfa.nextGroup = o.sites.length
  direct : o.direct = true → nfa.Direct
  shown : ∀ (i : Nat) (s : Site), o.sites[i]? = some s → s.Shown (nfa.showing i)
  /-- No group starts in the last state. -/
  not_start : ∀ i, ¬(nfa.state nfa.last).badge.Shows i .start
  /-- A group that does not close has no role in the last state. -/
  open_end : ∀ (i : Nat) (s : Site), o.sites[i]? = some s → s.closes = false →
    ∀ role, ¬(nfa.state nfa.last).badge.Shows i role

variable {nfa other whole : Nfa} {x y : Outline} {L : Language Char}

theorem outlined_of_blank (h : nfa.Speaks L) (hblank : nfa.Blank) (hgroups : nfa.nextGroup = 0)
    {direct : Bool} (hdirect : direct = true → nfa.Direct) :
    Outlined nfa { language := L, direct } := by
  refine ⟨h, Nfa.clean_of_blank hblank hgroups, hgroups, hdirect, fun i s hs => ?_,
    fun i hshows => ?_, fun i s hs => ?_⟩
  · cases hs
  · rw [hblank] at hshows
    exact Badge.not_shows_blank hshows
  · cases hs

theorem Outlined.copy (h : Outlined nfa x) : Outlined nfa.copy x := by
  have hn := h.speaks.wellFormed
  have hle : 0 + nfa.nextGroup ≤ maxGroups := by
    rw [Nat.zero_add]
    exact h.clean.le_maxGroups
  have hlast : ∀ {i role}, (nfa.copy.state nfa.copy.last).badge.Shows i role ↔
      (nfa.state nfa.last).badge.Shows i role := by
    intro i role
    have heq : (nfa.copy.state nfa.copy.last).badge = (nfa.state nfa.last).badge.shift 0 :=
      (Nfa.embedding_copy hn).badge_eq (Nfa.moved_last hn)
    rw [heq, h.clean.last.shows_shift hle, and_iff_right (Nat.zero_le i), Nat.sub_zero]
  refine
    { speaks := h.speaks.copy
      clean := Nfa.clean_copy hn h.clean
      nextGroup_eq := h.nextGroup_eq
      direct := fun hdirect => (h.direct hdirect).copy hn
      shown := fun i s hs => ?_
      not_start := fun i hshows => h.not_start i (hlast.1 hshows)
      open_end := fun i s hs hcloses role hshows => h.open_end i s hs hcloses role (hlast.1 hshows) }
  have hsame : nfa.copy.showing i = nfa.showing i :=
    funext fun role => Nfa.showing_copy hn h.clean i role
  rw [hsame]
  exact h.shown i s hs

/-- A place in two lists in a row is a place in one of them. -/
theorem getElem?_map_append_map {α β : Type} {xs ys : List α} {f g : α → β} {i : Nat} {b : β}
    (h : (xs.map f ++ ys.map g)[i]? = some b) :
    (i < xs.length ∧ ∃ a, xs[i]? = some a ∧ f a = b) ∨
      xs.length ≤ i ∧ ∃ a, ys[i - xs.length]? = some a ∧ g a = b := by
  rw [List.getElem?_append, List.length_map] at h
  split at h
  · next hi =>
    rw [List.getElem?_map, Option.map_eq_some_iff] at h
    exact .inl ⟨hi, h⟩
  · next hi =>
    rw [List.getElem?_map, Option.map_eq_some_iff] at h
    exact .inr ⟨Nat.le_of_not_lt hi, h⟩

theorem lt_or_eq_of_getElem?_concat {α : Type} {xs : List α} {x a : α} {i : Nat}
    (h : (xs ++ [x])[i]? = some a) :
    (i < xs.length ∧ xs[i]? = some a) ∨ i = xs.length ∧ x = a := by
  grind

theorem Outlined.seq (h : Outlined nfa x) (ho : Outlined other y)
    (hwhole : nfa.seq other = .ok whole) : Outlined whole (outlines.seq x y) := by
  have hn := h.speaks.wellFormed
  have hon := ho.speaks.wellFormed
  have hle := Nfa.add_nextGroup_le_of_seq hwhole
  have hlast : ∀ {i role}, (whole.state whole.last).badge.Shows i role ↔
      nfa.nextGroup ≤ i ∧ (other.state other.last).badge.Shows (i - nfa.nextGroup) role := by
    intro i role
    rw [Nfa.badge_last_seq hn hon hwhole]
    exact ho.clean.last.shows_shift hle
  refine
    { speaks := h.speaks.seq ho.speaks hwhole
      clean := Nfa.clean_seq hn hon hwhole h.clean ho.clean
      nextGroup_eq := ?_
      direct := fun hdirect => (h.direct hdirect).seq hn hon hwhole
      shown := fun i s hs => ?_
      not_start := fun i hshows => ho.not_start _ (hlast.1 hshows).2
      open_end := fun i s hs hcloses role hshows => ?_ }
  · rw [Nfa.nextGroup_seq hwhole, h.nextGroup_eq, ho.nextGroup_eq]
    simp [outlines]
  · rcases getElem?_map_append_map hs with ⟨hi, r, hr, rfl⟩ | ⟨hi, r, hr, rfl⟩
    · rw [Nfa.showing_seq_of_lt hn hon hwhole ho.clean (h.nextGroup_eq ▸ hi)]
      exact (h.shown i r hr).goOn
    · rw [← h.nextGroup_eq] at hi hr
      rw [Nfa.showing_seq_of_le hn hon hwhole h.clean ho.clean hi, h.speaks.language_eq]
      exact (ho.shown _ r hr).after x.language
  · obtain ⟨hi, hshows⟩ := hlast.1 hshows
    rw [h.nextGroup_eq] at hi hshows
    rcases getElem?_map_append_map hs with ⟨hlt, -⟩ | ⟨-, r, hr, rfl⟩
    · omega
    · exact ho.open_end _ r hr hcloses role hshows

theorem Outlined.or (h : Outlined nfa x) (ho : Outlined other y)
    (hwhole : nfa.or other = .ok whole) : Outlined whole (outlines.or x y) := by
  have hn := h.speaks.wellFormed
  have hon := ho.speaks.wellFormed
  have hlast : ∀ {i role}, ¬(whole.state whole.last).badge.Shows i role := by
    intro i role
    rw [Nfa.badge_last_or hn hon hwhole]
    exact Badge.not_shows_blank
  refine
    { speaks := h.speaks.or ho.speaks hwhole
      clean := Nfa.clean_or hn hon hwhole h.clean ho.clean
      nextGroup_eq := ?_
      direct := fun hdirect => absurd hdirect Bool.false_ne_true
      shown := fun i s hs => ?_
      not_start := fun i => hlast
      open_end := fun i s hs hcloses role => hlast }
  · rw [Nfa.nextGroup_or hwhole, h.nextGroup_eq, ho.nextGroup_eq]
    simp [outlines]
  · rcases getElem?_map_append_map hs with ⟨hi, r, hr, rfl⟩ | ⟨hi, r, hr, rfl⟩
    · rw [Nfa.showing_or_of_lt hn hon hwhole ho.clean (h.nextGroup_eq ▸ hi)]
      exact (h.shown i r hr).goOn
    · rw [← h.nextGroup_eq] at hi hr
      rw [Nfa.showing_or_of_le hn hon hwhole h.clean ho.clean hi]
      exact (ho.shown _ r hr).goOn

/-- A repetition: the groups stand behind any number of rounds, and something may follow. -/
theorem Outlined.loop (h : Outlined nfa x) (skip : Bool) (hL : (nfa.loop skip).Speaks L) :
    Outlined (nfa.loop skip)
      { language := L, sites := x.sites.map fun s => (s.after x.language∗).goOn } := by
  have hn := h.speaks.wellFormed
  have hlast : ∀ {i role}, ¬((nfa.loop skip).state (nfa.loop skip).last).badge.Shows i role := by
    intro i role
    rw [Nfa.badge_loop_last hn]
    exact Badge.not_shows_blank
  refine
    { speaks := hL
      clean := Nfa.clean_loop hn h.clean skip
      nextGroup_eq := ?_
      direct := fun hdirect => absurd hdirect Bool.false_ne_true
      shown := fun i s hs => ?_
      not_start := fun i => hlast
      open_end := fun i s hs hcloses role => hlast }
  · rw [List.length_map]
    exact h.nextGroup_eq
  · rw [List.getElem?_map, Option.map_eq_some_iff] at hs
    obtain ⟨r, hr, rfl⟩ := hs
    have hsame : (nfa.loop skip).showing i = fun role => x.language∗ * nfa.showing i role := by
      funext role
      rw [Nfa.showing_loop hn, h.speaks.language_eq]
    rw [hsame]
    exact ((h.shown i r hr).after _).goOn

theorem Outlined.optional (h : Outlined nfa x) :
    Outlined nfa.optional (outlines.unary .optional x) := by
  have hn := h.speaks.wellFormed
  refine
    { speaks := h.speaks.optional
      clean := Nfa.clean_optional hn h.clean
      nextGroup_eq := ?_
      direct := fun hdirect => absurd hdirect Bool.false_ne_true
      shown := fun i s hs => ?_
      not_start := fun i => ?_
      open_end := fun i s hs hcloses role => ?_ }
  · rw [outlines, List.length_map]
    exact h.nextGroup_eq
  · obtain ⟨r, hr, rfl⟩ := Option.map_eq_some_iff.1 (List.getElem?_map.symm.trans hs)
    apply (h.shown i r hr).pass
    · intro role w hw
      exact (Nfa.mem_showing_optional hn).2 (.inl hw)
    · ext w
      rw [Nfa.mem_showing_optional hn]
      exact or_iff_left fun hw => h.not_start i hw.2
    · intro hcloses
      ext role w
      rw [Nfa.mem_showing_optional hn]
      exact or_iff_left fun hw => h.open_end i r hr hcloses role hw.2
  · rw [Nfa.badge_last_optional]
    exact h.not_start i
  · obtain ⟨r, hr, rfl⟩ := Option.map_eq_some_iff.1 (List.getElem?_map.symm.trans hs)
    rw [Nfa.badge_last_optional]
    exact h.open_end i r hr hcloses role

/-- The group that has just been marked begins with the automaton and ends with it. -/
theorem shown_markGroup (h : nfa.Speaks L) (hc : nfa.Clean) {direct : Bool}
    (hdirect : direct = true → nfa.Direct) (hwhole : nfa.markGroup = .ok whole) :
    Site.Shown { before := 1, whole := L, direct } (whole.showing nfa.nextGroup) := by
  have hn := h.wellFormed
  have hL := h.language_eq
  subst hL
  refine ⟨fun w => Nfa.mem_showing_markGroup_start hn hwhole hc, fun u hu v hv hne => ?_,
    fun u hu v hv => ?_, fun _ w hw => ?_, fun _ w hw => ?_, fun hd hnil => ?_⟩
  · obtain rfl : u = [] := hu
    obtain ⟨x, hx⟩ := hv
    obtain ⟨q, t, t'⟩ := trail_append.1 hx
    have hstart : q ≠ nfa.start := by
      rintro rfl
      exact hne (hn.trail_start.1 t).1
    exact (Nfa.mem_showing_markGroup hn hwhole hc).2
      ⟨q, t, ⟨⟨v, t⟩, x, t'⟩, Nfa.inner_roleOf.2 hstart⟩
  · obtain rfl : u = [] := hu
    have hrole : (nfa.roleOf nfa.nextGroup nfa.last).has .stop = true := by
      rw [Nfa.roleOf, if_neg hn.start_ne_last.symm, if_pos rfl]
      rfl
    exact (Nfa.mem_showing_markGroup hn hwhole hc).2
      ⟨nfa.last, hv, ⟨⟨v, hv⟩, [], .nil _⟩, hrole⟩
  · obtain ⟨q, t, ⟨-, v, t'⟩, hrole⟩ := (Nfa.mem_showing_markGroup hn hwhole hc).1 hw
    refine (one_mul (Site.inside _)).symm ▸ ⟨⟨v, t.trans t'⟩, fun hd => ?_⟩
    rintro rfl
    exact Nfa.inner_roleOf.1 hrole ((hdirect hd).eq_start t)
  · obtain ⟨q, t, hq, hrole⟩ := (Nfa.mem_showing_markGroup hn hwhole hc).1 hw
    obtain rfl := Nfa.last_of_roleOf hrole
    exact (one_mul nfa.language).symm ▸ t
  · exact hn.start_ne_last ((hdirect hd).eq_start hnil).symm

theorem Outlined.group (h : Outlined nfa x) (hwhole : nfa.markGroup = .ok whole) :
    Outlined whole (outlines.group x) := by
  have hn := h.speaks.wellFormed
  have hsame := Nfa.sameGraph_markGroup hwhole
  obtain ⟨hgroups, -⟩ := Nfa.nextGroup_markGroup hwhole
  refine
    { speaks := h.speaks.markGroup hwhole
      clean := Nfa.clean_markGroup hn hwhole h.clean
      nextGroup_eq := ?_
      direct := fun hdirect => (h.direct hdirect).sameGraph hsame
      shown := fun i s hs => ?_
      not_start := fun i hshows => ?_
      open_end := fun i s hs hcloses role hshows => ?_ }
  · simp [outlines, hgroups, h.nextGroup_eq]
  · rcases lt_or_eq_of_getElem?_concat hs with ⟨hi, hs⟩ | ⟨rfl, rfl⟩
    · have hold : whole.showing i = nfa.showing i :=
        funext fun role => Nfa.showing_markGroup_of_lt hn hwhole (h.nextGroup_eq ▸ hi)
      rw [hold]
      exact h.shown i s hs
    · rw [← h.nextGroup_eq]
      exact shown_markGroup h.speaks h.clean h.direct hwhole
  · rw [hsame.last_eq, Nfa.shows_markGroup hn hwhole] at hshows
    rcases hshows with ⟨-, -, hrole⟩ | hold
    · exact hn.start_ne_last (Nfa.start_of_roleOf hrole).symm
    · exact h.not_start i hold
  · rw [hsame.last_eq, Nfa.shows_markGroup hn hwhole] at hshows
    rcases lt_or_eq_of_getElem?_concat hs with ⟨hi, hs⟩ | ⟨rfl, rfl⟩
    · rcases hshows with ⟨heq, -⟩ | hold
      · rw [h.nextGroup_eq] at heq
        omega
      · exact h.open_end i s hs hcloses role hold
    · cases hcloses

/-- Operators on languages leave no group. -/
theorem outlined_toNfa (g : Recognizer) (config : Config) (allowEmpty : Bool)
    (h : (g.toNfa config allowEmpty).Speaks L) {direct : Bool}
    (hdirect : direct = true → (g.toNfa config allowEmpty).Direct) :
    Outlined (g.toNfa config allowEmpty) { language := L, direct } :=
  outlined_of_blank h Recognizer.blank_toNfa rfl hdirect

theorem Outlined.unary (op : Unary) (h : Outlined nfa x) (hwhole : op.apply nfa = .ok whole) :
    Outlined whole (outlines.unary op x) := by
  have hspeaks := op.speaks_apply h.speaks hwhole
  cases op with
  | star =>
    cases hwhole
    exact h.loop true hspeaks
  | plus =>
    cases hwhole
    exact h.loop false hspeaks
  | optional =>
    cases hwhole
    exact h.optional
  | invert =>
    cases hwhole
    exact outlined_toNfa _ _ _ hspeaks fun hdirect => absurd hdirect Bool.false_ne_true
  | shortest =>
    cases hwhole
    exact outlined_toNfa _ _ _ hspeaks fun hdirect => absurd hdirect Bool.false_ne_true
  | allPrefixes =>
    cases hwhole
    exact outlined_toNfa _ _ _ hspeaks fun _ => Nfa.direct_allPrefixes nfa
  | withoutMatch =>
    obtain ⟨inside, -, hinside⟩ := Except.bind_eq_ok.1 hwhole
    cases hinside
    exact outlined_toNfa _ _ _ hspeaks fun hdirect => absurd hdirect Bool.false_ne_true

/-- The operators make of automata with outlines one with what becomes of the outlines. -/
theorem describes_outlines : outlines.Describes Outlined where
  charSet config ranges inverted :=
    outlined_of_blank (Nfa.speaks_charSet config ranges inverted)
      (Nfa.blank_charSet config ranges inverted) rfl
      fun _ => Nfa.direct_charSet config ranges inverted
  anyChar config :=
    outlined_of_blank (Nfa.speaks_anyChar config) (Nfa.blank_anyChar config) rfl
      fun _ => Nfa.direct_oneStep
  literal config s :=
    outlined_of_blank (Nfa.speaks_literal config s) (Nfa.blank_literal config s)
      (Nfa.nextGroup_literal config s) fun hdirect =>
        Nfa.direct_literal config (by simpa using hdirect)
  copy h := h.copy
  or h ho hwhole := h.or ho hwhole
  seq h ho hwhole := h.seq ho hwhole
  unary op _ _ _ h hwhole := h.unary op hwhole
  group h hwhole := h.group hwhole

/-- The automaton of a pattern has the language of its tree and shows the sites of its tree. -/
theorem outlined_ofPattern {config : Config} {pattern : String}
    (h : Nfa.ofPattern config pattern = .ok nfa) {t : Tree} (ht : t.Of pattern) :
    Outlined nfa t.outline := by
  have houtlined := describes_outlines.of_ofPattern lawful_outlines h ht
  rwa [ht.eval_outlines] at houtlined

end Pattern

end LongestMatch
