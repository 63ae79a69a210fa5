import LongestMatch.Proofs.Descending

/-!
# A refusal stops the parser at once

A machine may keep a note of every call and of its answer (`Machine.noting`). The notes of a machine
that refuses a call are the first calls that the pattern makes on a machine that refuses nothing,
and the refused one after them is the last (`refusal_stops_at_once`).
-/

namespace LongestMatch

namespace Pattern

namespace Machine

variable {σ : Type}

/-- The same machine, which takes a note of every call and of the error it was refused with, if it
was. -/
def noting (machine : Machine σ) : Machine (σ × List (Instr × Option Error)) :=
  fun noted instr =>
    let (s, answer) := machine noted.1 instr
    ((s, noted.2 ++ [(instr, answer)]), answer)

end Machine

namespace Course

variable {σ : Type} {machine : Machine σ} {c : Course}

/-- The instructions of a course. -/
def instrs (c : Course) : List Instr :=
  c.calls.map Prod.fst

/-- The notes on instructions that have been accepted. -/
def accepted (instrs : List Instr) : List (Instr × Option Error) :=
  instrs.map fun instr => (instr, none)

/-- How a machine comes through a course: to its end, or to a call that it refuses. -/
inductive Passes (machine : Machine σ) (s : σ) (noted : List (Instr × Option Error)) (c : Course) :
    Prop where
  | whole (s' : σ)
      (hrun : c.run machine s = (s', c.fault.map fun f => .rejection f.1 f.2))
      (hnoting : c.run machine.noting (s, noted) =
        ((s', noted ++ accepted c.instrs), c.fault.map fun f => .rejection f.1 f.2))
  | refused (n : Nat) (s' : σ) (instr : Instr) (position : Nat) (error : Error)
      (hcall : c.calls[n]? = some (instr, position))
      (hrun : c.run machine s = (s', some (.refusal error position)))
      (hnoting : c.run machine.noting (s, noted) =
        ((s', noted ++ (accepted (c.instrs.take n) ++ [(instr, some error)])),
          some (.refusal error position)))

theorem passes (machine : Machine σ) (s : σ) (noted : List (Instr × Option Error)) (c : Course) :
    Passes machine s noted c := by
  obtain ⟨calls, fault⟩ := c
  induction calls generalizing s noted with
  | nil =>
    refine .whole s rfl ?_
    rw [instrs, List.map_nil, accepted, List.map_nil, List.append_nil]
    rfl
  | cons call calls ih =>
    obtain ⟨instr, position⟩ := call
    have hrun := run_after_single machine s instr position ⟨calls, fault⟩
    have hnoting := run_after_single machine.noting (s, noted) instr position
      ⟨calls, fault⟩
    rw [Machine.noting] at hnoting
    generalize machine s instr = answer at hrun hnoting
    obtain ⟨s', _ | error⟩ := answer
    · -- the call is accepted, and its note comes before all others
      cases ih s' (noted ++ [(instr, none)]) with
      | whole s'' hrun' hnoting' =>
        refine .whole s'' (hrun.trans hrun') (hnoting.trans (hnoting'.trans ?_))
        rw [List.append_assoc]
        rfl
      | refused n s'' instr' position' error hcall hrun' hnoting' =>
        refine .refused (n + 1) s'' instr' position' error hcall (hrun.trans hrun')
          (hnoting.trans (hnoting'.trans ?_))
        rw [List.append_assoc]
        rfl
    · exact .refused 0 s' instr position error rfl hrun hnoting

/-- A machine that refuses nothing writes down all instructions. -/
theorem run_recorder (written : Array Instr) (c : Course) :
    c.run (Machine.recorder none) written =
      (written ++ c.instrs.toArray, c.fault.map fun f => .rejection f.1 f.2) := by
  obtain ⟨calls, fault⟩ := c
  induction calls generalizing written with
  | nil => simp [run, run.go, instrs]
  | cons call calls ih =>
    obtain ⟨instr, position⟩ := call
    have hrun := run_after_single (Machine.recorder none) written instr position
      ⟨calls, fault⟩
    refine hrun.trans ((ih (written.push instr)).trans ?_)
    simp [instrs]

end Course

section Notes

variable {n k : Nat} {instr instr' : Instr} {error error' : Error} {instrs : List Instr}

theorem Course.getElem?_accepted_ne :
    (Course.accepted instrs)[k]? ≠ some (instr, some error) := by
  rw [Course.accepted, List.getElem?_map]
  cases instrs[k]? <;> simp

/-- Only the last note is on a refusal. -/
theorem Course.getElem?_refused (hn : n < instrs.length)
    (hk : (Course.accepted (instrs.take n) ++ [(instr, some error)])[k]? =
      some (instr', some error')) :
    k = n ∧ instr' = instr ∧ error' = error := by
  have hlength : (Course.accepted (instrs.take n)).length = n := by
    rw [Course.accepted, List.length_map, List.length_take_of_le hn.le]
  rcases Nat.lt_or_ge k n with hlt | hge
  · rw [List.getElem?_append_left (hlength.symm ▸ hlt)] at hk
    exact absurd hk Course.getElem?_accepted_ne
  · rw [List.getElem?_append_right (hlength.symm ▸ hge), hlength, List.getElem?_singleton] at hk
    split at hk
    · next hzero =>
      cases hk
      exact ⟨by omega, rfl, rfl⟩
    · cases hk

theorem Course.getElem?_refused_self (hn : n < instrs.length) :
    (Course.accepted (instrs.take n) ++ [(instr, some error)])[n]? = some (instr, some error) := by
  have hlength : (Course.accepted (instrs.take n)).length = n := by
    rw [Course.accepted, List.length_map, List.length_take_of_le hn.le]
  rw [List.getElem?_append_right hlength.le, hlength, Nat.sub_self]
  rfl

theorem Machine.refusal_of_ne (h : error ≠ .tooManyGroups) (pattern : List Char) (position : Nat) :
    Machine.refusal pattern position error = error := by
  cases error with
  | tooManyGroups => exact absurd rfl h
  | _ => rfl

end Notes

/-- Whatever the machine is, its notes on a pattern tell whether it refused a call. Then the calls
before were the first ones that a machine without refusals is given for the pattern, no call came
after, and the error is that of the refusal, except that too many groups are a fault of the pattern
at the column behind the characters that have been consumed. A machine that refuses none of the
first `n` calls, where a machine without refusals is given no more, comes to the same end as that
one. -/
theorem refusal_stops_at_once {σ : Type} (machine : Machine σ) (s : σ) (pattern : String) :
    let (calls, ending) := (Machine.recorder none).runPattern #[] pattern
    ∃ s' notes consumed error,
      Descent.read machine.noting (s, []) pattern = ((s', notes), consumed, error) ∧
      machine.runPattern s pattern = (s', error) ∧
      consumed ≤ pattern.toList.length ∧
      (∀ n instr e, notes[n]? = some (instr, some e) →
        calls[n]? = some instr ∧
        notes = (calls.toList.take n).map (fun instr => (instr, none)) ++ [(instr, some e)] ∧
        (e ≠ .tooManyGroups → error = some e) ∧
        (e = .tooManyGroups → ∃ rejection : Rejection, error = some (.pattern rejection) ∧
          rejection.fault = .tooManyGroups ∧ rejection.column = consumed + 1)) ∧
      ∀ n, calls.size ≤ n → (∀ k < n, ∀ instr e, notes[k]? ≠ some (instr, some e)) →
        notes = calls.toList.map (fun instr => (instr, none)) ∧ error = ending := by
  rw [Machine.runPattern_eq_run, Machine.runPattern_eq_run, Course.run_recorder]
  obtain ⟨consumed, hle, hread, hleaves, -⟩ := Descent.exists_read_eq machine.noting (s, []) pattern
  rw [hread]
  generalize Course.ofScript (Script.ofChars pattern.toList) = c at hleaves ⊢
  cases c.passes machine s [] with
  | whole s' hrun hnoting =>
    rw [hrun, hnoting]
    refine ⟨s', _, consumed, _, rfl, rfl, hle, fun n instr e hn => ?_, fun n _ _ => ?_⟩
    · exact absurd hn Course.getElem?_accepted_ne
    · simp [Course.accepted]
  | refused n s' instr position error hcall hrun hnoting =>
    have hinstr : c.instrs[n]? = some instr := by
      rw [Course.instrs, List.getElem?_map, hcall]
      rfl
    have hn : n < c.instrs.length := (List.getElem?_eq_some_iff.1 hinstr).1
    have hposition : consumed = position := hleaves _ (congrArg Prod.snd hnoting)
    subst hposition
    rw [hrun, hnoting]
    refine ⟨s', _, consumed, _, rfl, rfl, hle, fun k instr' e hk => ?_, fun k hk hnone => ?_⟩
    · obtain ⟨rfl, rfl, rfl⟩ := Course.getElem?_refused hn hk
      refine ⟨by simpa using hinstr, by simp [Course.accepted], fun hne => ?_, fun heq => ?_⟩
      · exact congrArg some (Machine.refusal_of_ne hne _ _)
      · subst heq
        exact ⟨_, rfl, rfl, rfl⟩
    · have hsize : n < k := Nat.lt_of_lt_of_le hn (by simpa using hk)
      exact absurd (Course.getElem?_refused_self hn) (hnone n hsize instr error)

/-- The third call of `a(!b)` is refused. -/
theorem refusal_stops_at_once_group : ∃ s' rejection,
    (Machine.recorder (some (2, .tooManyGroups))).runPattern #[] "a(!b)" =
      (s', some (.pattern rejection)) ∧
    rejection.fault = .tooManyGroups ∧ rejection.column = 6 := by
  obtain ⟨s', notes, consumed, error, hread, hrun, -, hrefused, -⟩ :=
    refusal_stops_at_once (Machine.recorder (some (2, .tooManyGroups))) #[] "a(!b)"
  have hnotes :
      Descent.read (Machine.recorder (some (2, .tooManyGroups))).noting (#[], []) "a(!b)" =
        ((#[.text "a", .text "b"],
          [(.text "a", none), (.text "b", none), (.group, some .tooManyGroups)]), 5,
          some (.pattern ⟨.tooManyGroups, 6, "a(!b)"⟩)) := by
    decide +kernel
  rw [hnotes] at hread
  cases hread
  obtain ⟨-, -, -, hmany⟩ := hrefused 2 .group .tooManyGroups rfl
  obtain ⟨rejection, herror, hfault, hcolumn⟩ := hmany rfl
  rw [herror] at hrun
  exact ⟨_, rejection, hrun, hfault, hcolumn⟩

end Pattern

end LongestMatch
