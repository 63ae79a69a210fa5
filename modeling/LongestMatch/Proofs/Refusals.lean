import LongestMatch.Proofs.Depth
import LongestMatch.Proofs.Listings

/-!
# When the automaton of a pattern is refused

A pattern with a tree is refused only because of its groups, and then it is reported with this fault
(`Tree.Of.ofPattern_cases`). Whether an operator refuses may be seen from what counts of its
operands: if it accepts them where what counts of the result fits (`Algebra.Admits`), and nothing
fits that is made of parts that do not, the automaton of a pattern exists if the value of its tree
fits (`Algebra.Admits.exists_ofPattern`). What counts here is the number of groups (`Counted`): the
automaton exists exactly if no part of the tree has too many (`Tree.Of.exists_ofPattern_iff`).
-/

namespace LongestMatch

namespace Pattern

namespace Algebra

variable {α : Type} {A : Algebra α} {R : Nfa → α → Prop} {Fits : α → Prop}

/-- The operands of what fits do fit. -/
structure Guards (A : Algebra α) (Fits : α → Prop) : Prop where
  or : ∀ {x y}, Fits (A.or x y) → Fits x ∧ Fits y
  seq : ∀ {x y}, Fits (A.seq x y) → Fits x ∧ Fits y
  unary : ∀ op {x}, Fits (A.unary op x) → Fits x
  group : ∀ {x}, Fits (A.group x) → Fits x

/-- Operands are accepted if the result fits. -/
structure Admits (A : Algebra α) (R : Nfa → α → Prop) (Fits : α → Prop) : Prop where
  or : ∀ {nfa other x y}, R nfa x → R other y → Fits (A.or x y) → ∃ whole, nfa.or other = .ok whole
  seq : ∀ {nfa other x y}, R nfa x → R other y → Fits (A.seq x y) →
    ∃ whole, nfa.seq other = .ok whole
  unary : ∀ op {nfa x}, R nfa x → Fits (A.unary op x) → ∃ whole, Unary.apply op nfa = .ok whole
  group : ∀ {nfa x}, R nfa x → Fits (A.group x) → ∃ whole, nfa.markGroup = .ok whole

variable {b : Builder} {xs ys : List α} {instr : Instr}

/-- What fits after an instruction did so before. -/
theorem Guards.of_effect (h : A.Guards Fits) (heffect : A.effect xs instr = some ys)
    (hys : ∀ y ∈ ys, Fits y) : ∀ x ∈ xs, Fits x := by
  cases instr with
  | set ranges inverted | any | text s =>
    cases heffect
    exact (List.forall_mem_cons.1 hys).2
  | swap =>
    rcases xs with _ | ⟨x, _ | ⟨y, xs⟩⟩ <;> cases heffect
    simp only [List.forall_mem_cons] at hys ⊢
    exact ⟨hys.2.1, hys.1, hys.2.2⟩
  | dup =>
    rcases xs with _ | ⟨x, xs⟩ <;> cases heffect
    exact (List.forall_mem_cons.1 hys).2
  | or =>
    rcases xs with _ | ⟨y, _ | ⟨x, xs⟩⟩ <;> cases heffect
    simp only [List.forall_mem_cons] at hys ⊢
    exact ⟨(h.or hys.1).2, (h.or hys.1).1, hys.2⟩
  | seq =>
    rcases xs with _ | ⟨y, _ | ⟨x, xs⟩⟩ <;> cases heffect
    simp only [List.forall_mem_cons] at hys ⊢
    exact ⟨(h.seq hys.1).2, (h.seq hys.1).1, hys.2⟩
  | unary op =>
    rcases xs with _ | ⟨x, xs⟩ <;> cases heffect
    simp only [List.forall_mem_cons] at hys ⊢
    exact ⟨h.unary op hys.1, hys.2⟩
  | group =>
    rcases xs with _ | ⟨x, xs⟩ <;> cases heffect
    simp only [List.forall_mem_cons] at hys ⊢
    exact ⟨h.group hys.1, hys.2⟩

theorem Guards.of_effects (h : A.Guards Fits) {instrs : List Instr}
    (heffects : A.effects xs instrs = some ys) (hys : ∀ y ∈ ys, Fits y) : ∀ x ∈ xs, Fits x := by
  induction instrs generalizing xs with
  | nil =>
    cases heffects
    exact hys
  | cons instr instrs ih =>
    rw [effects_cons, Option.bind_eq_some_iff] at heffects
    obtain ⟨zs, heffect, heffects⟩ := heffects
    exact h.of_effect heffect (ih heffects)

/-- An instruction is carried out if what it leaves fits. -/
theorem Admits.exec (h : A.Admits R Fits) (hb : List.Forall₂ R b.stack xs)
    (heffect : A.effect xs instr = some ys) (hys : ∀ y ∈ ys, Fits y) :
    ∃ b', Builder.exec b instr = (b', none) := by
  obtain ⟨stack, config⟩ := b
  cases instr with
  | set ranges inverted | any | text s => exact ⟨_, rfl⟩
  | swap =>
    rcases xs with _ | ⟨x, _ | ⟨y, xs⟩⟩ <;> cases heffect
    obtain _ | ⟨-, _ | ⟨-, -⟩⟩ := hb
    exact ⟨_, rfl⟩
  | dup =>
    rcases xs with _ | ⟨x, xs⟩ <;> cases heffect
    obtain _ | ⟨-, -⟩ := hb
    exact ⟨_, rfl⟩
  | or =>
    rcases xs with _ | ⟨y, _ | ⟨x, xs⟩⟩ <;> cases heffect
    obtain _ | ⟨hy, _ | ⟨hx, -⟩⟩ := hb
    obtain ⟨whole, hwhole⟩ := h.or hx hy (hys _ List.mem_cons_self)
    exact ⟨_, congrArg (Builder.pushResult _ _) hwhole⟩
  | seq =>
    rcases xs with _ | ⟨y, _ | ⟨x, xs⟩⟩ <;> cases heffect
    obtain _ | ⟨hy, _ | ⟨hx, -⟩⟩ := hb
    obtain ⟨whole, hwhole⟩ := h.seq hx hy (hys _ List.mem_cons_self)
    exact ⟨_, congrArg (Builder.pushResult _ _) hwhole⟩
  | unary op =>
    rcases xs with _ | ⟨x, xs⟩ <;> cases heffect
    obtain _ | ⟨hx, -⟩ := hb
    obtain ⟨whole, hwhole⟩ := h.unary op hx (hys _ List.mem_cons_self)
    exact ⟨_, congrArg (Builder.pushResult _ _) hwhole⟩
  | group =>
    rcases xs with _ | ⟨x, xs⟩ <;> cases heffect
    obtain _ | ⟨hx, -⟩ := hb
    obtain ⟨whole, hwhole⟩ := h.group hx (hys _ List.mem_cons_self)
    exact ⟨_, congrArg (Builder.pushResult _ _) hwhole⟩

/-- Instructions are carried out if what they leave in the end fits. -/
theorem Admits.run (h : A.Admits R Fits) (hfits : A.Guards Fits) (hR : A.Describes R)
    {instrs : List Instr} (hb : List.Forall₂ R b.stack xs)
    (heffects : A.effects xs instrs = some ys) (hys : ∀ y ∈ ys, Fits y) :
    ∃ b', Machine.run Builder.exec b instrs = (b', none) := by
  induction instrs generalizing b xs with
  | nil => exact ⟨b, rfl⟩
  | cons instr instrs ih =>
    rw [effects_cons, Option.bind_eq_some_iff] at heffects
    obtain ⟨zs, heffect, heffects⟩ := heffects
    -- whatever is on the way to what fits in the end does fit
    obtain ⟨b₁, hstep⟩ := h.exec hb heffect (hfits.of_effects heffects hys)
    obtain ⟨zs', heffect', hb₁⟩ := hR.exec hb hstep
    obtain rfl : zs = zs' := Option.some.inj (heffect.symm.trans heffect')
    rw [Machine.run, hstep]
    exact ih hb₁ heffects

end Algebra

/-! ## Patterns with a tree -/

section Tree

variable {t : Tree} {pattern : String}

theorem lawful_shape : shape.Lawful :=
  ⟨fun _ _ _ _ => rfl, fun _ _ _ => rfl⟩

/-- The instructions of a tree leave one automaton, which is that of the pattern. Or one of them is
refused because of the groups, and the pattern is rejected with this fault. -/
theorem Tree.Of.ofPattern_cases (ht : t.Of pattern) (config : Config) :
    (∃ nfa, Nfa.ofPattern config pattern = .ok nfa) ∨
    ∃ b position, Machine.run Builder.exec { config } t.calls = (b, some .tooManyGroups) ∧
      Nfa.ofPattern config pattern =
        .error (.pattern (Rejection.locate pattern.toList .tooManyGroups position)) := by
  obtain ⟨hfault, hinstrs⟩ := ht.script
  have hstack : ({ config } : Builder).stack = [] ++ [] := rfl
  have hkept := kept_run (ht.effects_calls lawful_shape []) hstack rfl
  unfold Nfa.ofPattern Machine.runPattern
  simp only [hfault]
  cases hrun : Machine.run Builder.exec { config } t.calls with
  | mk b error =>
    rw [hrun] at hkept
    cases error with
    | none =>
      obtain ⟨extra, hb, hlength⟩ := hkept
      obtain ⟨nfa, rfl⟩ := List.length_eq_one_iff.1 hlength
      rw [← hinstrs] at hrun
      refine .inl ⟨nfa, ?_⟩
      rw [Machine.runStretches_eq_iff.2 hrun]
      show b.finish = .ok nfa
      rw [Builder.finish, hb]
      rfl
    | some error =>
      obtain ⟨rfl, -⟩ := hkept
      rw [← hinstrs] at hrun
      obtain ⟨position, hstretches⟩ := Machine.exists_runStretches_eq hrun
      refine .inr ⟨b, position, rfl, ?_⟩
      rw [hstretches]
      rfl

/-- If the value of the tree fits, the automaton exists. -/
theorem Algebra.Admits.exists_ofPattern {α : Type} {A : Algebra α} {R : Nfa → α → Prop}
    {Fits : α → Prop} (h : A.Admits R Fits) (hguards : A.Guards Fits) (hR : A.Describes R)
    (hA : A.Lawful) (ht : t.Of pattern) (hfits : Fits (A.eval t)) (config : Config) :
    ∃ nfa, Nfa.ofPattern config pattern = .ok nfa := by
  obtain ⟨b, hrun⟩ := h.run hguards hR (b := { config }) List.Forall₂.nil (ht.effects_calls hA [])
    (List.forall_mem_singleton.2 hfits)
  rcases ht.ofPattern_cases config with hok | ⟨b', position, hrefused, -⟩
  · exact hok
  · rw [hrun] at hrefused
    cases hrefused

end Tree

/-! ## The number of groups -/

section Counted

variable {nfa whole : Nfa} {x : Listing} {t : Tree} {pattern : String} {config : Config}

/-- The automaton has as many groups as are listed, and there were never too many. -/
structure Counted (nfa : Nfa) (x : Listing) : Prop where
  built : nfa.Built
  nextGroup_eq : nfa.nextGroup = x.groups.length
  fits : x.fits

theorem nextGroup_apply {op : Unary} (h : op.apply nfa = .ok whole) :
    whole.nextGroup = if op.keepsGroups then nfa.nextGroup else 0 := by
  cases op with
  | withoutMatch =>
    obtain ⟨inside, -, hinside⟩ := Except.bind_eq_ok.1 h
    cases hinside
    rfl
  | _ =>
    cases h
    rfl

/-- The operators count the groups as they are listed. -/
theorem describes_counted : listings.Describes Counted where
  charSet config ranges inverted := ⟨.charSet config ranges inverted, rfl, trivial⟩
  anyChar config := ⟨.anyChar config, rfl, trivial⟩
  literal config s := ⟨.literal config s, Nfa.nextGroup_literal config s, trivial⟩
  copy h := ⟨.copy h.built, h.nextGroup_eq, h.fits⟩
  or {nfa other whole x y} h ho hwhole := by
    have hsum : whole.nextGroup = (x.groups ++ y.groups).length := by
      rw [Nfa.nextGroup_or hwhole, h.nextGroup_eq, ho.nextGroup_eq, List.length_append]
    have hle := (Nfa.nextGroup_or hwhole).trans_le (Nfa.add_nextGroup_le_of_or hwhole)
    exact ⟨.or h.built ho.built hwhole, hsum, h.fits, ho.fits, hsum ▸ hle⟩
  seq {nfa other whole x y} h ho hwhole := by
    have hsum : whole.nextGroup = (x.groups ++ y.groups).length := by
      rw [Nfa.nextGroup_seq hwhole, h.nextGroup_eq, ho.nextGroup_eq, List.length_append]
    have hle := (Nfa.nextGroup_seq hwhole).trans_le (Nfa.add_nextGroup_le_of_seq hwhole)
    exact ⟨.seq h.built ho.built hwhole, hsum, h.fits, ho.fits, hsum ▸ hle⟩
  unary op {nfa whole x} h hwhole := by
    refine ⟨built_apply h.built hwhole, ?_, h.fits⟩
    show whole.nextGroup = (if op.keepsGroups then x.groups else []).length
    rw [nextGroup_apply hwhole, h.nextGroup_eq]
    split <;> rfl
  group {nfa whole x} h hwhole := by
    obtain ⟨hnext, hlt⟩ := Nfa.nextGroup_markGroup hwhole
    have hsum : whole.nextGroup = (x.groups ++ [x.language]).length := by
      rw [hnext, h.nextGroup_eq, List.length_append, List.length_singleton]
    have hle : whole.nextGroup ≤ maxGroups := hnext.trans_le hlt
    exact ⟨.markGroup h.built hwhole, hsum, h.fits, hsum ▸ hle⟩

theorem guards_fits : listings.Guards Listing.fits :=
  ⟨fun h => ⟨h.1, h.2.1⟩, fun h => ⟨h.1, h.2.1⟩, fun _ _ h => h, fun h => h.1⟩

/-- Where the groups are few enough, no operator refuses its operands. -/
theorem admits_counted : listings.Admits Counted Listing.fits where
  or h ho hfits := by
    apply Nfa.exists_or_eq_ok
    rw [h.nextGroup_eq, ho.nextGroup_eq, ← List.length_append]
    exact hfits.2.2
  seq h ho hfits := by
    apply Nfa.exists_seq_eq_ok
    rw [h.nextGroup_eq, ho.nextGroup_eq, ← List.length_append]
    exact hfits.2.2
  unary op nfa _ h _ := by
    cases op with
    | withoutMatch =>
      obtain ⟨inside, hinside⟩ := Nfa.exists_anywhere h.built
      exact ⟨inside.invert, Except.bind_eq_ok.2 ⟨inside, hinside, rfl⟩⟩
    | _ => exact ⟨_, rfl⟩
  group h hfits := by
    refine ⟨_, if_neg ?_⟩
    rw [h.nextGroup_eq, Nat.not_le]
    have hle := hfits.2
    rwa [List.length_append] at hle

theorem counted_ofPattern (ht : t.Of pattern) (h : Nfa.ofPattern config pattern = .ok nfa) :
    Counted nfa t.listing := by
  rw [← ht.eval_listings]
  exact describes_counted.of_ofPattern lawful_listings h ht

/-- The automaton of a pattern exists if no part of its tree has too many groups, and only then. -/
theorem Tree.Of.exists_ofPattern_iff (ht : t.Of pattern) (config : Config) :
    (∃ nfa, Nfa.ofPattern config pattern = .ok nfa) ↔ t.Fits := by
  constructor
  · rintro ⟨nfa, hnfa⟩
    exact (counted_ofPattern ht hnfa).fits
  · intro hfits
    have heval : (listings.eval t).fits := ht.eval_listings ▸ hfits
    exact admits_counted.exists_ofPattern guards_fits describes_counted lawful_listings ht heval
      config

end Counted

end Pattern

end LongestMatch
