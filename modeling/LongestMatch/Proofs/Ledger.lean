import LongestMatch.Proofs.Placements
import LongestMatch.Proofs.Refusals
import LongestMatch.Proofs.Settings

/-!
# Groups and markers of a pattern

A `Ledger` is a builder that notes, beside each automaton on its stack, which states have been
marked for which group. The notes change nothing in what the builder does
(`Ledger.builder_runPattern`). They are kept as the groups of a tree are listed, so that a group of
the pattern may be followed from where it is marked to its number.

* `Noted.exec`, `Noted.run` — along the instructions of a pattern, the notes beside an automaton are
  placements of its groups, in the order in which its value lists them.
* `Nfa.ofPattern_groups` — a pattern has too many groups if a part of it has; if it has not, the
  groups of its automaton are those of the tree, numbered by their places.
-/

namespace LongestMatch

namespace Pattern

open Nfa (Lists)

/-- A builder, and for each automaton on its stack the placements of its groups. -/
structure Ledger where
  builder : Builder
  pages : List (List Placement) := []

namespace Ledger

/-- What becomes of the pages when the builder, with this stack, carries out an instruction. -/
def note : List Nfa → List (List Placement) → Instr → List (List Placement)
  | _, pages, .set _ _ | _, pages, .any | _, pages, .text _ => [] :: pages
  | _, gs :: hs :: pages, .swap => hs :: gs :: pages
  -- the states of a copy are numbered anew, in the order in which they are reached
  | nfa :: _, gs :: pages, .dup => gs.map (nfa.relocate (nfa.rename 0)) :: gs :: pages
  | other :: nfa :: _, hs :: gs :: pages, .or =>
    (gs ++ hs.map (other.relocate (nfa.homeOf other nfa.start))) :: pages
  | other :: nfa :: _, hs :: gs :: pages, .seq =>
    (gs ++ hs.map (other.relocate (nfa.homeOf other nfa.last))) :: pages
  -- what a language operator makes is new, and marked nowhere
  | _, gs :: pages, .unary op => (if op.keepsGroups then gs else []) :: pages
  | nfa :: _, gs :: pages, .group => (gs ++ [nfa.placement]) :: pages
  | _, pages, _ => pages

/-- What an instruction does: the builder carries it out, and what it does is noted. -/
def exec : Machine Ledger
  | l, instr =>
    let result := Builder.exec l.builder instr
    (⟨result.1, note l.builder.stack l.pages instr⟩, result.2)

/-- The builder does what it does without notes. -/
theorem builder_runPattern (l : Ledger) (pattern : String) :
    Machine.runPattern Builder.exec l.builder pattern =
      Prod.map builder id (Machine.runPattern exec l pattern) :=
  Machine.runPattern_map (fun _ _ => rfl) l pattern

end Ledger

/-! ## Notes and values -/

variable {nfa other whole : Nfa} {x y : Listing} {gs hs : List Placement}

/-- The automaton has the language of the listing, and these are the placements of its groups. -/
structure Recorded (nfa : Nfa) (gs : List Placement) (x : Listing) : Prop where
  speaks : nfa.Speaks x.language
  lists : nfa.Lists gs
  groups_eq : gs.map Placement.whole = x.groups

theorem recorded_of_blank (h : nfa.Speaks x.language) (hbuilt : nfa.Built) (hblank : nfa.Blank)
    (hgroups : nfa.nextGroup = 0) (hx : x.groups = []) : Recorded nfa [] x :=
  ⟨h, .blank hbuilt hblank hgroups, hx.symm⟩

theorem map_whole_append (f : Nat → Nat) (hx : gs.map Placement.whole = x.groups)
    (hy : hs.map Placement.whole = y.groups) :
    (gs ++ hs.map (other.relocate f)).map Placement.whole = x.groups ++ y.groups := by
  rw [List.map_append, List.map_map, hx, ← hy]
  rfl

namespace Recorded

theorem copy (h : Recorded nfa gs x) :
    Recorded nfa.copy (gs.map (nfa.relocate (nfa.rename 0))) x := by
  refine ⟨h.speaks.copy, .copy h.lists, ?_⟩
  rw [List.map_map, ← h.groups_eq]
  rfl

theorem or (h : Recorded nfa gs x) (ho : Recorded other hs y) (hwhole : nfa.or other = .ok whole) :
    Recorded whole (gs ++ hs.map (other.relocate (nfa.homeOf other nfa.start)))
      (listings.or x y) :=
  ⟨h.speaks.or ho.speaks hwhole, .or h.lists ho.lists hwhole,
    map_whole_append _ h.groups_eq ho.groups_eq⟩

theorem seq (h : Recorded nfa gs x) (ho : Recorded other hs y)
    (hwhole : nfa.seq other = .ok whole) :
    Recorded whole (gs ++ hs.map (other.relocate (nfa.homeOf other nfa.last)))
      (listings.seq x y) :=
  ⟨h.speaks.seq ho.speaks hwhole, .seq h.lists ho.lists hwhole,
    map_whole_append _ h.groups_eq ho.groups_eq⟩

theorem group (h : Recorded nfa gs x) (hwhole : nfa.markGroup = .ok whole) :
    Recorded whole (gs ++ [nfa.placement]) (listings.group x) := by
  refine ⟨h.speaks.markGroup hwhole, .markGroup h.lists hwhole, ?_⟩
  rw [List.map_append, h.groups_eq]
  show x.groups ++ [nfa.language] = x.groups ++ [x.language]
  rw [h.speaks.language_eq]

theorem unary (op : Unary) (h : Recorded nfa gs x) (hwhole : op.apply nfa = .ok whole) :
    Recorded whole (if op.keepsGroups then gs else []) (listings.unary op x) := by
  have hspeaks := op.speaks_apply h.speaks hwhole
  have hbuilt := built_apply h.lists.built hwhole
  have hgroups := nextGroup_apply hwhole
  cases op with
  | star =>
    cases hwhole
    exact ⟨hspeaks, .star h.lists, h.groups_eq⟩
  | plus =>
    cases hwhole
    exact ⟨hspeaks, .plus h.lists, h.groups_eq⟩
  | optional =>
    cases hwhole
    exact ⟨hspeaks, .optional h.lists, h.groups_eq⟩
  | withoutMatch =>
    obtain ⟨inside, -, hinside⟩ := Except.bind_eq_ok.1 hwhole
    cases hinside
    exact recorded_of_blank hspeaks hbuilt Recognizer.blank_toNfa hgroups rfl
  | invert | shortest | allPrefixes =>
    cases hwhole
    exact recorded_of_blank hspeaks hbuilt Recognizer.blank_toNfa hgroups rfl

end Recorded

/-- The pages beside the automata are their placements, in the order of the values. -/
inductive Noted : List Nfa → List (List Placement) → List Listing → Prop where
  | nil : Noted [] [] []
  | cons {nfa : Nfa} {stack : List Nfa} {gs : List Placement} {pages : List (List Placement)}
      {x : Listing} {xs : List Listing} :
      Recorded nfa gs x → Noted stack pages xs → Noted (nfa :: stack) (gs :: pages) (x :: xs)

namespace Noted

variable {l l' : Ledger} {xs ys : List Listing} {instr : Instr}

theorem pushResult {b : Builder} {rest : List Nfa} {pages : List (List Placement)}
    {result : Except GroupOverflow Nfa} (hrest : Noted rest pages xs)
    (hresult : ∀ {whole}, result = .ok whole → Recorded whole gs x)
    (hok : (b.pushResult rest result).2 = none) :
    Noted (b.pushResult rest result).1.stack (gs :: pages) (x :: xs) := by
  cases result with
  | ok whole => exact .cons (hresult rfl) hrest
  | error e =>
    cases e
    cases hok

/-- An instruction that is not refused leaves pages for what it leaves on the stack. -/
theorem exec (h : Noted l.builder.stack l.pages xs) (hok : (Ledger.exec l instr).2 = none) :
    ∃ ys, listings.effect xs instr = some ys ∧
      Noted (Ledger.exec l instr).1.builder.stack (Ledger.exec l instr).1.pages ys := by
  obtain ⟨⟨stack, config⟩, pages⟩ := l
  cases instr with
  | set ranges inverted =>
    exact ⟨_, rfl, .cons (recorded_of_blank (Nfa.speaks_charSet config ranges inverted)
      (.charSet config ranges inverted) (Nfa.blank_charSet config ranges inverted) rfl rfl) h⟩
  | any =>
    exact ⟨_, rfl, .cons (recorded_of_blank (Nfa.speaks_anyChar config) (.anyChar config)
      (Nfa.blank_anyChar config) rfl rfl) h⟩
  | text s =>
    exact ⟨_, rfl, .cons (recorded_of_blank (Nfa.speaks_literal config s) (.literal config s)
      (Nfa.blank_literal config s) (Nfa.nextGroup_literal config s) rfl) h⟩
  | swap =>
    obtain _ | ⟨htop, _ | ⟨hsecond, hrest⟩⟩ := h
    · cases hok
    · cases hok
    · exact ⟨_, rfl, .cons hsecond (.cons htop hrest)⟩
  | dup =>
    obtain _ | ⟨htop, hrest⟩ := h
    · cases hok
    · exact ⟨_, rfl, .cons htop.copy (.cons htop hrest)⟩
  | or =>
    obtain _ | ⟨ho, _ | ⟨hn, hrest⟩⟩ := h
    · cases hok
    · cases hok
    · exact ⟨_, rfl, hrest.pushResult (hn.or ho) hok⟩
  | seq =>
    obtain _ | ⟨ho, _ | ⟨hn, hrest⟩⟩ := h
    · cases hok
    · cases hok
    · exact ⟨_, rfl, hrest.pushResult (hn.seq ho) hok⟩
  | unary op =>
    obtain _ | ⟨hn, hrest⟩ := h
    · cases hok
    · exact ⟨_, rfl, hrest.pushResult (hn.unary op) hok⟩
  | group =>
    obtain _ | ⟨hn, hrest⟩ := h
    · cases hok
    · exact ⟨_, rfl, hrest.pushResult hn.group hok⟩

/-- Instructions that are carried out to the end leave pages for what they leave on the stack. -/
theorem run {instrs : List Instr} (h : Noted l.builder.stack l.pages xs)
    (hok : Machine.run Ledger.exec l instrs = (l', none)) :
    ∃ ys, listings.effects xs instrs = some ys ∧ Noted l'.builder.stack l'.pages ys := by
  induction instrs generalizing l xs with
  | nil =>
    cases hok
    exact ⟨xs, rfl, h⟩
  | cons instr instrs ih =>
    rw [Machine.run] at hok
    split at hok
    · next l₁ hstep =>
      obtain ⟨zs, heffect, h₁⟩ := h.exec (congrArg Prod.snd hstep)
      rw [hstep] at h₁
      obtain ⟨ys, heffects, h'⟩ := ih h₁ hok
      refine ⟨ys, ?_, h'⟩
      rw [Algebra.effects_cons, heffect]
      exact heffects
    · cases hok

end Noted

variable {t : Tree} {pattern : String} {config : Config}

/-- A pattern that is not rejected leaves one page, which holds the placements of its groups. -/
theorem exists_page (ht : t.Of pattern) (hnfa : Nfa.ofPattern config pattern = .ok nfa) :
    ∃ b gs, Machine.runPattern Ledger.exec { builder := { config } } pattern =
        (⟨b, [gs]⟩, none) ∧
      b.stack = [nfa] ∧ Recorded nfa gs t.listing := by
  obtain ⟨hfault, b, hstack, hrun⟩ := exists_builder_of_ofPattern hnfa
  -- the builder alone comes to its end, so the one that takes notes does, too
  have hbuilder := Ledger.builder_runPattern { builder := { config } } pattern
  rw [Machine.runPattern_eq_iff.2 ⟨hrun, hfault⟩] at hbuilder
  rcases hl : Machine.runPattern Ledger.exec { builder := { config } } pattern with
    ⟨⟨b', pages⟩, error⟩
  rw [hl] at hbuilder
  cases hbuilder
  have hledger := (Machine.runPattern_eq_iff.1 hl).1
  rw [ht.script.2] at hledger
  obtain ⟨ys, heffects, hnoted⟩ := Noted.nil.run hledger
  obtain rfl : [t.listing] = ys := by
    rw [← ht.eval_listings]
    exact Option.some.inj ((ht.effects_calls lawful_listings []).symm.trans heffects)
  rw [hstack] at hnoted
  obtain _ | ⟨hrecorded, ⟨⟩⟩ := hnoted
  exact ⟨b', _, rfl, hstack, hrecorded⟩

end Pattern

namespace Nfa

open Pattern

variable {pattern : String} {t : Tree}

/-- A pattern with a tree is rejected for its groups exactly if a part of the tree has too many,
parts included whose groups are lost later. Otherwise its automaton exists and has as many groups as
the tree lists. While it is built, the placements of just these groups are noted, and its markers of
number `i` are those that have been put for the group at place `i`. -/
theorem ofPattern_groups (ht : t.Of pattern) (config : Config) :
    ((∃ rejection, ofPattern config pattern = .error (.pattern rejection) ∧
        rejection.fault = .tooManyGroups) ↔
      ∃ s ∈ t.parts, maxGroups < s.groups.length) ∧
    ((∀ s ∈ t.parts, s.groups.length ≤ maxGroups) →
      ∃ nfa, ofPattern config pattern = .ok nfa ∧ nfa.nextGroup = t.groups.length ∧
        ∃ b gs, Machine.runPattern Ledger.exec { builder := { config } } pattern =
            (⟨b, [gs]⟩, none) ∧
          b.stack = [nfa] ∧ gs.map Placement.whole = t.groups.map Tree.language ∧
          ∀ p i role, (nfa.state p).marks.Has none i role ↔
            ∃ g, gs[i]? = some g ∧ g.roles p role) := by
  constructor
  · have hnot : (∃ s ∈ t.parts, maxGroups < s.groups.length) ↔ ¬t.Fits := by
      simp only [Tree.Fits, not_forall, Nat.not_le, exists_prop]
    rw [hnot, ← ht.exists_ofPattern_iff config]
    constructor
    · rintro ⟨rejection, hrejected, -⟩ ⟨nfa, hnfa⟩
      rw [hnfa] at hrejected
      cases hrejected
    · intro hno
      rcases ht.ofPattern_cases config with hnfa | ⟨-, position, -, hrejected⟩
      · exact absurd hnfa hno
      · exact ⟨_, hrejected, rfl⟩
  · intro hfits
    obtain ⟨nfa, hnfa⟩ := (ht.exists_ofPattern_iff config).2 hfits
    have hcount := (counted_ofPattern ht hnfa).nextGroup_eq
    obtain ⟨b, gs, hledger, hstack, hrecorded⟩ := exists_page ht hnfa
    exact ⟨nfa, hnfa, hcount.trans (List.length_map _), b, gs, hledger, hstack,
      hrecorded.groups_eq, hrecorded.lists.agrees⟩

/-- Two copies of a group and a further one have the numbers up to 2; 129 copies are too many. -/
theorem ofPattern_groups_copies :
    (∃ nfa, ofPattern {} "(!a)\x7b2\x7d(!b)" = .ok nfa ∧ nfa.nextGroup = 3) ∧
      ∃ rejection, ofPattern {} "(!a)\x7b129\x7d" = .error (.pattern rejection) ∧
        rejection.fault = .tooManyGroups := by
  have ha := Derives.report (.sequence (.factor (.atom (.plain (by decide : 'a' ∉ special)))))
  have hb := Derives.report (.sequence (.factor (.atom (.plain (by decide : 'b' ∉ special)))))
  have htwo : Bounds [.plain '\x7b', .plain '2', .plain '\x7d'] 2 (some 2) :=
    .exact (.intro (List.cons_ne_nil '2' []) (by simp) (by decide)) (by decide)
  have hmany : Bounds [.plain '\x7b', .plain '1', .plain '2', .plain '9', .plain '\x7d'] 129
      (some 129) :=
    .exact (.intro (List.cons_ne_nil '1' ['2', '9']) (by simp) (by decide)) (by decide)
  have hfew : (Tree.seq (.times 2 (some 2) (.group true (.plain 'a')))
      (.group true (.plain 'b'))).Of "(!a)\x7b2\x7d(!b)" :=
    ⟨_, spells_plain (by decide),
      .sequence (.seq (.factor (.times (.atom ha) htwo)) (.atom hb))⟩
  have htoo : (Tree.times 129 (some 129) (.group true (.plain 'a'))).Of "(!a)\x7b129\x7d" :=
    ⟨_, spells_plain (by decide), .sequence (.factor (.times (.atom ha) hmany))⟩
  constructor
  · obtain ⟨nfa, hnfa, hgroups, -⟩ := (ofPattern_groups hfew {}).2 (by
      simp [Tree.parts, Tree.groups, copyCount, maxGroups])
    exact ⟨nfa, hnfa, hgroups.trans (by simp [Tree.groups, copyCount])⟩
  · refine (ofPattern_groups htoo {}).1.2 ⟨_, Tree.mem_parts_self _, ?_⟩
    simp [Tree.groups, copyCount, maxGroups]

end Nfa

end LongestMatch
