import LongestMatch.Proofs.Construction
import LongestMatch.Proofs.Marking

/-!
# What all states carry

A badge is the action and the markers of a state. Operators put badges elsewhere, move the unbound
groups of the second operand behind those of the first, and leave blank ones behind. So a property
that blank badges have, and that moving groups does not harm, is handed on from the operands to the
result. `Nfa.Everywhere` is about all states of the row, those included that nothing leads to.

* `Everywhere.seq`, `Everywhere.or`, `Everywhere.loop`, … — each operator hands it on.
* `Silent.seq`, `Silent.or`, … — above all, that there is no action.
* `Built.sound` — the markers of every state of an automaton that can be built are sound.
-/

namespace LongestMatch

namespace Nfa

variable {nfa other whole both : Nfa} {B : Badge → Prop} {p s t : Nat}

/-- All badges have a property. -/
def Everywhere (B : Badge → Prop) (nfa : Nfa) : Prop :=
  ∀ p, B (nfa.state p).badge

/-- Blank badges have the property, and it does not depend on the numbers of unbound groups. -/
structure Lasting (B : Badge → Prop) : Prop where
  blank : B Badge.blank
  shift : ∀ offset b, B b → B (b.shift offset)

/-! ## Changing and adding states -/

section Changing

variable (h : nfa.Everywhere B)

include h

theorem Everywhere.modify (id : Nat) {f : State → State}
    (hf : ∀ s : State, B s.badge → B (f s).badge) : (nfa.modify id f).Everywhere B := by
  intro p
  rw [state_modify]
  split
  · exact hf _ (h p)
  · exact h p

theorem Everywhere.modifyAll (ids : List Nat) {f : Nat → State → State}
    (hf : ∀ id (s : State), B s.badge → B (f id s).badge) : (nfa.modifyAll ids f).Everywhere B := by
  unfold Nfa.modifyAll
  induction ids generalizing nfa with
  | nil => exact h
  | cons id ids ih => exact ih (h.modify id (hf id))

theorem Everywhere.addEps (id : Nat) (ids : List Nat) :
    (nfa.modify id (State.addEps ids)).Everywhere B :=
  h.modify id fun _ hs => hs

theorem Everywhere.push {s : State} (hs : B s.badge) (heq : whole.states = nfa.states.push s) :
    whole.Everywhere B := by
  intro p
  rw [state_push heq]
  split
  · exact hs
  · exact h p

end Changing

section Lasting

variable (hB : Lasting B)

include hB

theorem Lasting.of_size_le (hp : nfa.states.size ≤ p) : B (nfa.state p).badge := by
  rw [state_of_size_le hp]
  exact hB.blank

theorem Lasting.embedded {P : Nat → Prop} {f : Nat → Nat} {base offset : Nat}
    (h : other.Everywhere B) (he : other.Embedding whole P f base offset) (hp : P p) :
    B (whole.state (f p)).badge := by
  rw [he.badge_eq hp]
  exact hB.shift _ _ (h p)

/-! ## Joining -/

theorem Everywhere.join (h : nfa.Everywhere B) (source goal : Nat) :
    (nfa.join source goal).Everywhere B := by
  unfold Nfa.join
  simp only
  split
  · have hcut : (nfa.modify goal fun s => { s with eps := [] }).Everywhere B :=
      h.modify goal fun _ hs => hs
    exact hcut.addEps source _
  · split
    · have hcut : (nfa.modify goal fun _ => {}).Everywhere B :=
        h.modify goal fun _ _ => hB.blank
      exact hcut.modify source fun _ _ => h goal
    · exact h.addEps source _

theorem Everywhere.joinStarts (h : nfa.Everywhere B) (s : Nat) :
    (nfa.joinStarts s).Everywhere B := by
  unfold Nfa.joinStarts
  split
  · exact h.join hB _ _
  · have hstart : B ({ eps := [nfa.start, s] } : State).badge := hB.blank
    exact h.push hstart rfl

theorem Everywhere.joinLasts (h : nfa.Everywhere B) (t : Nat) :
    (nfa.joinLasts t).Everywhere B := by
  unfold Nfa.joinLasts
  split
  · exact h.addEps _ _
  · split
    · exact h.addEps _ _
    · have hgrown : ({ nfa with states := nfa.states.push {} } : Nfa).Everywhere B :=
        h.push (s := {}) hB.blank rfl
      exact (hgrown.addEps _ _).addEps _ _

theorem Beside.everywhere (h : nfa.Beside other both s t) (hn : nfa.Everywhere B)
    (ho : other.Everywhere B) : both.Everywhere B := by
  intro p
  rcases Nat.lt_or_ge p both.states.size with hp | hp
  · rcases h.cases hp with hlt | ⟨p', hp', rfl⟩
    · rw [h.state_first p hlt]
      exact hn p
    · exact hB.embedded ho h.embedding hp'
  · exact hB.of_size_le hp

/-! ## The operators -/

section Binary

variable (hn : nfa.WellFormed) (ho : other.WellFormed) (hbn : nfa.Everywhere B)
  (hbo : other.Everywhere B)

include hn ho hbn hbo

theorem Everywhere.seq (h : nfa.seq other = .ok whole) : whole.Everywhere B := by
  obtain ⟨both, s, t, htake, rfl⟩ := seq_eq_ok.1 h
  have hboth := (beside_of_takeIn hn ho htake).1.everywhere hB hbn hbo
  exact hboth.join hB both.last s

theorem Everywhere.or (h : nfa.or other = .ok whole) : whole.Everywhere B := by
  obtain ⟨both, s, t, htake, rfl⟩ := or_eq_ok.1 h
  have hboth := (beside_of_takeIn hn ho htake).1.everywhere hB hbn hbo
  exact (hboth.joinStarts hB s).joinLasts hB t

end Binary

theorem Everywhere.loop (h : nfa.Everywhere B) (skip : Bool) : (nfa.loop skip).Everywhere B := by
  have hentry : ∀ eps, B ({ eps } : State).badge := fun _ => hB.blank
  have hgrown : ∀ eps, ({ nfa with states := (nfa.states.push { eps }).push {} } : Nfa).Everywhere
      B := by
    intro eps
    have hone : ({ nfa with states := nfa.states.push { eps } } : Nfa).Everywhere B :=
      h.push (hentry eps) rfl
    exact hone.push (hentry []) rfl
  exact (hgrown _).addEps nfa.last _

theorem Everywhere.copy (h : nfa.Everywhere B) (hn : nfa.WellFormed) :
    nfa.copy.Everywhere B := by
  intro p
  rcases Nat.lt_or_ge p nfa.copy.states.size with hp | hp
  · obtain ⟨p', hp', rfl⟩ := (embedding_copy hn).surjective p (Nat.zero_le p) hp
    exact hB.embedded h (embedding_copy hn) hp'
  · exact hB.of_size_le hp

theorem Blank.everywhere (h : nfa.Blank) : nfa.Everywhere B := by
  intro p
  rw [h p]
  exact hB.blank

end Lasting

theorem Everywhere.optional (h : nfa.Everywhere B) : nfa.optional.Everywhere B :=
  h.addEps _ _

theorem Everywhere.markGroup (h : nfa.Everywhere B)
    (hmark : ∀ p b, B b → B (b.1, b.2.add none [nfa.roleOf nfa.nextGroup p]))
    (hwhole : nfa.markGroup = .ok whole) : whole.Everywhere B := by
  unfold Nfa.markGroup at hwhole
  split at hwhole
  · cases hwhole
  · cases hwhole
    exact h.modifyAll _ fun id s hs => hmark id s.badge hs

theorem Everywhere.addAction (h : nfa.Everywhere B) (action : ActionId)
    (harm : ∀ b, B b → B (some action, b.2)) (hbind : ∀ b, B b → B (b.1, b.2.bind action)) :
    (nfa.addAction action).Everywhere B := by
  have harmed : (nfa.arm action).Everywhere B := h.modify nfa.last fun s hs => harm s.badge hs
  exact harmed.modifyAll _ fun _ s hs => hbind s.badge hs

/-! ## No action -/

theorem lasting_silent : Lasting fun b => b.1 = none :=
  ⟨rfl, fun _ _ hb => hb⟩

section Silent

variable (h : nfa.Silent)

include h

theorem Silent.seq (hn : nfa.WellFormed) (ho : other.WellFormed) (hother : other.Silent)
    (hwhole : nfa.seq other = .ok whole) : whole.Silent :=
  Everywhere.seq lasting_silent hn ho h hother hwhole

theorem Silent.or (hn : nfa.WellFormed) (ho : other.WellFormed) (hother : other.Silent)
    (hwhole : nfa.or other = .ok whole) : whole.Silent :=
  Everywhere.or lasting_silent hn ho h hother hwhole

theorem Silent.loop (skip : Bool) : (nfa.loop skip).Silent :=
  Everywhere.loop lasting_silent h skip

theorem Silent.optional : nfa.optional.Silent :=
  Everywhere.optional (B := fun b => b.1 = none) h

theorem Silent.copy (hn : nfa.WellFormed) : nfa.copy.Silent :=
  Everywhere.copy lasting_silent h hn

theorem Silent.markGroup (hwhole : nfa.markGroup = .ok whole) : whole.Silent :=
  Everywhere.markGroup (B := fun b => b.1 = none) h (fun _ _ hb => hb) hwhole

end Silent

/-! ## Sound markers -/

theorem lasting_sound : Lasting fun b => b.2.Sound :=
  ⟨Marks.sound_empty, fun offset _ hb => hb.shiftUnbound offset⟩

/-- Every state has at most one entry for an owner, and no marker without a role. -/
theorem Built.sound (h : nfa.Built) : nfa.Everywhere fun b => b.2.Sound := by
  induction h with
  | empty config => exact (blank_empty config).everywhere lasting_sound
  | literal config s => exact (blank_literal config s).everywhere lasting_sound
  | charSet config ranges inverted =>
    exact (blank_charSet config ranges inverted).everywhere lasting_sound
  | anyChar config => exact (blank_anyChar config).everywhere lasting_sound
  | copy hn ih => exact ih.copy lasting_sound hn.wellFormed
  | seq hn ho h ihn iho => exact ihn.seq lasting_sound hn.wellFormed ho.wellFormed iho h
  | or hn ho h ihn iho => exact ihn.or lasting_sound hn.wellFormed ho.wellFormed iho h
  | star _ ih => exact ih.loop lasting_sound true
  | plus _ ih => exact ih.loop lasting_sound false
  | optional _ ih => exact ih.optional
  | invert => exact Recognizer.blank_toNfa.everywhere lasting_sound
  | shortest => exact Recognizer.blank_toNfa.everywhere lasting_sound
  | allPrefixes => exact Recognizer.blank_toNfa.everywhere lasting_sound
  | markGroup _ h ih =>
    refine ih.markGroup (fun p b hb => ?_) h
    exact hb.add none (List.forall_mem_singleton.2 (proper_roleOf _ p))
  | addAction action _ ih =>
    exact ih.addAction action (fun _ hb => hb) fun _ hb => hb.bind action

end Nfa

end LongestMatch
