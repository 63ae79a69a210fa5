import LongestMatch.Pattern.Run
import LongestMatch.Proofs.Reading

/-!
# A machine carries out the tree of a pattern

Exactly the patterns that the grammar derives are read without a fault, and what a machine carries
out are the instructions of the tree, in their order (`grammar_exact`).
-/

namespace LongestMatch

namespace Pattern

open Stretch (expandAll)

/-! ## Stretches and machines -/

namespace Machine

variable {σ : Type} {machine : Machine σ}

theorem run_append (s : σ) (instrs instrs' : List Instr) :
    machine.run s (instrs ++ instrs') =
      match machine.run s instrs with
      | (s, none) => machine.run s instrs'
      | (s, some error) => (s, some error) := by
  induction instrs generalizing s with
  | nil => rfl
  | cons instr instrs ih =>
    rw [List.cons_append, run, run]
    rcases machine s instr with ⟨s', _ | error⟩
    · exact ih s'
    · rfl

theorem runTimes_eq (instrs : List Instr) (s : σ) (times : Nat) :
    machine.runTimes instrs s times = machine.run s (List.replicate times instrs).flatten := by
  induction times generalizing s with
  | zero => rfl
  | succ times ih =>
    rw [List.replicate_succ, List.flatten_cons, run_append, runTimes]
    rcases machine.run s instrs with ⟨s', _ | error⟩
    · exact ih s'
    · rfl

/-- Stretches are only an abbreviation, except for the words of a refusal. -/
theorem runStretches_eq_iff {pattern : List Char} {stretches : List Stretch} {s s' : σ} :
    machine.runStretches pattern s stretches = (s', none) ↔
      machine.run s (expandAll stretches) = (s', none) := by
  induction stretches generalizing s with
  | nil => exact Iff.rfl
  | cons stretch stretches ih =>
    have hexpand : expandAll (stretch :: stretches) = stretch.expand ++ expandAll stretches :=
      List.flatMap_cons
    rw [hexpand, run_append, runStretches, runTimes_eq]
    show (match machine.run s stretch.expand with
      | (s, none) => machine.runStretches pattern s stretches
      | (s, some error) => (s, some (refusal pattern stretch.position error))) = _ ↔ _
    rcases machine.run s stretch.expand with ⟨s₁, _ | error⟩
    · exact ih
    · refine iff_of_false (fun h => ?_) fun h => ?_
      · cases h
      · cases h

/-- An instruction that is refused is reported where the pattern has been read to. -/
theorem exists_runStretches_eq {pattern : List Char} {stretches : List Stretch} {s s' : σ}
    {error : Error} (h : machine.run s (expandAll stretches) = (s', some error)) :
    ∃ position, machine.runStretches pattern s stretches =
      (s', some (refusal pattern position error)) := by
  induction stretches generalizing s with
  | nil => cases h
  | cons stretch stretches ih =>
    have hexpand : expandAll (stretch :: stretches) = stretch.expand ++ expandAll stretches :=
      List.flatMap_cons
    rw [hexpand, run_append, Stretch.expand, ← runTimes_eq] at h
    rw [runStretches]
    generalize machine.runTimes stretch.instrs s stretch.times = result at h ⊢
    obtain ⟨s₁, _ | error₁⟩ := result
    · exact ih h
    · cases h
      exact ⟨stretch.position, rfl⟩

/-- A pattern is carried out to its end if no instruction is refused and the pattern has no fault.
-/
theorem runPattern_eq_iff {pattern : String} {s s' : σ} :
    machine.runPattern s pattern = (s', none) ↔
      machine.run s (Script.ofChars pattern.toList).instrs = (s', none) ∧
        (Script.ofChars pattern.toList).fault = none := by
  have hrun : machine.run s (Script.ofChars pattern.toList).instrs = (s', none) ↔
      machine.runStretches pattern.toList s (Script.ofChars pattern.toList).stretches = (s', none) :=
    runStretches_eq_iff.symm
  rw [hrun]
  unfold runPattern
  simp only
  rcases machine.runStretches pattern.toList s (Script.ofChars pattern.toList).stretches
    with ⟨s₁, _ | error⟩
  · simp [Prod.mk.injEq]
  · refine iff_of_false (fun h => ?_) fun h => ?_
    · cases h
    · cases h.1

/-- A machine that refuses nothing carries out every instruction. -/
theorem run_of_accepts (haccepts : ∀ s i, (machine s i).2 = none) (s : σ) (instrs : List Instr) :
    machine.run s instrs = (instrs.foldl (fun s i => (machine s i).1) s, none) := by
  induction instrs generalizing s with
  | nil => rfl
  | cons instr instrs ih =>
    have hstep : machine s instr = ((machine s instr).1, none) := Prod.ext rfl (haccepts s instr)
    rw [run, hstep]
    exact ih _

end Machine

/-! ## Patterns without a fault -/

section Fault

variable {p : Progress} {t : Tree} {pattern : String}

/-- A malformed lexeme is a fault of the pattern, if there is none before it. -/
theorem step_of_isBad {l : Lexeme} (h : l.kind.IsBad) : ∃ fault, (p.step l).2 = .error fault := by
  generalize hk : l.kind = k at h
  cases k with
  | badOperand fault position =>
    refine ⟨(fault, position), ?_⟩
    unfold Progress.step Progress.proceed
    rw [hk]
  | badBounds fault position =>
    unfold Progress.step
    rw [hk]
    simp only
    split
    · exact ⟨_, rfl⟩
    · exact ⟨_, rfl⟩
  | _ => exact h.elim

theorem not_isBad_of_read {lexemes : List Lexeme} (h : (p.read lexemes).fault = none) :
    ∀ l ∈ lexemes, ¬l.kind.IsBad := by
  induction lexemes generalizing p with
  | nil => nofun
  | cons l lexemes ih =>
    rw [Progress.read] at h
    cases hstep : p.step l with
    | mk stretches result =>
      rw [hstep] at h
      cases result with
      | error fault => cases h
      | ok p' =>
        refine List.forall_mem_cons.2 ⟨fun hbad => ?_, ih h⟩
        obtain ⟨fault, hfault⟩ := step_of_isBad hbad (p := p)
        rw [hstep] at hfault
        cases hfault

/-- A pattern without a fault has a tree. -/
theorem exists_tree_of_fault (h : (Script.ofChars pattern.toList).fault = none) :
    ∃ t : Tree, t.Of pattern := by
  obtain ⟨toks, htoks⟩ := Lexeme.exists_tokenized (Glyph.ofChars 0 pattern.toList)
    (notMem_kinds_ofChars 0 pattern.toList) (not_isBad_of_read h)
  have hks := spells_ofChars 0 pattern.toList fun _ => htoks.broken_notMem
  have hread := read_of_tokenized hks htoks
  cases ht : assemble toks with
  | none =>
    rw [ht] at hread
    exact absurd h hread
  | some t => exact ⟨t, _, hks, derives_of_assemble htoks ht⟩

/-- A pattern with a tree has no fault, and its instructions are those of the tree. -/
theorem Tree.Of.script (h : t.Of pattern) : (Script.ofChars pattern.toList).fault = none ∧
    (Script.ofChars pattern.toList).instrs = t.calls := by
  obtain ⟨ks, hks, hderives⟩ := h
  obtain ⟨toks, htoks, ht⟩ := exists_tokens_of_derives hderives
  have hread := read_of_tokenized hks htoks
  rw [ht] at hread
  exact hread

end Fault

/-! ## The whole of it -/

/-- A machine that refuses nothing comes to the end of a pattern without an error if and only if the
grammar derives the pattern. Then it has carried out the instructions of the tree one after another,
and no others. -/
theorem grammar_exact {σ : Type} (machine : Machine σ) (haccepts : ∀ s i, (machine s i).2 = none)
    (s : σ) (pattern : String) :
    ((machine.runPattern s pattern).2 = none ↔ ∃ t : Tree, t.Of pattern) ∧
      ∀ t : Tree, t.Of pattern →
        machine.runPattern s pattern = (t.calls.foldl (fun s i => (machine s i).1) s, none) := by
  have hcarried : ∀ t : Tree, t.Of pattern →
      machine.runPattern s pattern = (t.calls.foldl (fun s i => (machine s i).1) s, none) := by
    intro t ht
    obtain ⟨hfault, hinstrs⟩ := ht.script
    refine Machine.runPattern_eq_iff.2 ⟨?_, hfault⟩
    rw [hinstrs, Machine.run_of_accepts haccepts]
  refine ⟨⟨fun h => ?_, fun h => ?_⟩, hcarried⟩
  · exact exists_tree_of_fault (Machine.runPattern_eq_iff.1 (Prod.ext rfl h)).2
  · obtain ⟨t, ht⟩ := h
    rw [hcarried t ht]

/-- What is written down of `ab*|(!c)`. -/
theorem grammar_exact_recorder :
    (Machine.recorder none).runPattern #[] "ab*|(!c)" =
      (#[.text "a", .text "b", .unary .star, .seq, .text "c", .group, .or], none) := by
  have htree : (Tree.or (.seq (.plain 'a') (.unary .star (.plain 'b')))
      (.group true (.plain 'c'))).Of "ab*|(!c)" := by
    refine ⟨[.plain 'a', .plain 'b', .plain '*', .plain '|', .plain '(', .plain '!', .plain 'c',
      .plain ')'], ?_, ?_⟩
    · exact .plain (by decide) (.plain (by decide) (.plain (by decide) (.plain (by decide)
        (.plain (by decide) (.plain (by decide) (.plain (by decide) (.plain (by decide) .nil)))))))
    · have hab := Derives.seq (.factor (.atom (.plain (by decide : 'a' ∉ special))))
        (.unary .star (.atom (.plain (by decide : 'b' ∉ special))))
      have hc := Derives.sequence (.factor (.atom (.plain (by decide : 'c' ∉ special))))
      exact .or (.sequence hab) (.factor (.atom (.report hc)))
  exact (grammar_exact (Machine.recorder none) (fun _ _ => rfl) #[] "ab*|(!c)").2 _ htree

end Pattern

end LongestMatch
