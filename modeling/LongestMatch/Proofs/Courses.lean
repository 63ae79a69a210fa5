import LongestMatch.Pattern.Descent
import LongestMatch.Proofs.Parsing

/-!
# Keeping to the course of a pattern

What is to come of a pattern is a course: calls of the machine, each at the position up to which the
pattern has been read, and perhaps a fault behind them. Carrying out the pattern is running its
course (`runPattern_eq_run`).

A part of a parser *keeps to* a course if it makes the calls at the front of it, leaves off where it
has to, and breaks off as the course does, whatever the machine is (`Keeps`). This is told for the
steps of a parser one by one.
-/

namespace LongestMatch

namespace Pattern

/-! ## Courses -/

/-- An instruction, and the position up to which the pattern has been read when it is issued. -/
abbrev Call : Type :=
  Instr × Nat

namespace Stretch

/-- The calls of a stretch. -/
def calls (s : Stretch) : List Call :=
  s.expand.map fun instr => (instr, s.position)

theorem calls_single (instr : Instr) (position : Nat) :
    (single instr position).calls = [(instr, position)] :=
  rfl

end Stretch

/-- What is to come: calls, and then a fault or the end. -/
structure Course where
  calls : List Call
  fault : Option (Fault × Nat)

/-- How a course breaks off. -/
inductive Break where
  /-- The machine refuses a call at this position. -/
  | refusal (error : Error) (position : Nat)
  /-- The pattern has a fault at this position. -/
  | rejection (fault : Fault) (position : Nat)

namespace Break

/-- The error that is reported. -/
def error (pattern : List Char) : Break → Error
  | refusal error position => Machine.refusal pattern position error
  | rejection fault position => .pattern (Rejection.locate pattern fault position)

/-- A call that is refused leaves the cursor where it was made. -/
def LeavesAt : Break → Nat → Prop
  | refusal _ position, consumed => consumed = position
  | rejection _ _, _ => True

end Break

namespace Course

variable {σ : Type} {machine : Machine σ}

/-- Nothing is to come. -/
def done : Course :=
  ⟨[], none⟩

/-- Nothing but a fault is to come. -/
def broken (fault : Fault) (position : Nat) : Course :=
  ⟨[], some (fault, position)⟩

/-- Puts calls in front. -/
def after (calls : List Call) (c : Course) : Course :=
  ⟨calls ++ c.calls, c.fault⟩

theorem after_append (calls calls' : List Call) (c : Course) :
    c.after (calls ++ calls') = (c.after calls').after calls := by
  simp [after]

/-- The course of a script. -/
def ofScript (script : Script) : Course :=
  ⟨script.stretches.flatMap Stretch.calls, script.fault⟩

theorem ofScript_prepend (stretches : List Stretch) (script : Script) :
    ofScript (script.prepend stretches) =
      (ofScript script).after (stretches.flatMap Stretch.calls) := by
  simp [ofScript, Script.prepend, after]

/-- Makes the calls up to the first one that is refused. -/
def run (machine : Machine σ) (s : σ) (c : Course) : σ × Option Break :=
  go c.fault s c.calls
where
  /-- Makes calls, with a fault behind them. -/
  go (fault : Option (Fault × Nat)) (s : σ) : List Call → σ × Option Break
  | [] => (s, fault.map fun f => .rejection f.1 f.2)
  | (instr, position) :: rest =>
    match machine s instr with
    | (s, none) => go fault s rest
    | (s, some error) => (s, some (.refusal error position))

theorem run_done (s : σ) : done.run machine s = (s, none) :=
  rfl

theorem run_after_single (machine : Machine σ) (s : σ) (instr : Instr) (position : Nat)
    (c : Course) :
    (c.after [(instr, position)]).run machine s =
      match machine s instr with
      | (s, none) => c.run machine s
      | (s, some error) => (s, some (.refusal error position)) := by
  rcases hcall : machine s instr with ⟨s', _ | error⟩
  · simp only [run, after, List.singleton_append, run.go, hcall]
  · simp only [run, after, List.singleton_append, run.go, hcall]

/-- The calls of a row of instructions are all made at one position. -/
theorem run_after_map (s : σ) (instrs : List Instr) (position : Nat) (c : Course) :
    (c.after (instrs.map fun instr => (instr, position))).run machine s =
      match machine.run s instrs with
      | (s, none) => c.run machine s
      | (s, some error) => (s, some (.refusal error position)) := by
  induction instrs generalizing s with
  | nil => rfl
  | cons instr instrs ih =>
    rw [List.map_cons, ← List.singleton_append, after_append, run_after_single, Machine.run]
    rcases machine s instr with ⟨s', _ | error⟩
    · exact ih s'
    · rfl

end Course

namespace Machine

variable {σ : Type} {machine : Machine σ}

theorem runStretches_eq_run (pattern : List Char) (s : σ) (script : Script) :
    (match machine.runStretches pattern s script.stretches with
      | (s, some error) => (s, some error)
      | (s, none) => (s, script.fault.map fun f => .pattern (Rejection.locate pattern f.1 f.2))) =
      (((Course.ofScript script).run machine s).1,
        ((Course.ofScript script).run machine s).2.map (Break.error pattern)) := by
  obtain ⟨stretches, fault⟩ := script
  induction stretches generalizing s with
  | nil => rcases fault with _ | f <;> rfl
  | cons stretch stretches ih =>
    have hcourse : Course.ofScript ⟨stretch :: stretches, fault⟩ =
        (Course.ofScript ⟨stretches, fault⟩).after stretch.calls :=
      Course.ofScript_prepend [stretch] ⟨stretches, fault⟩ |>.trans (by simp)
    rw [hcourse, Stretch.calls, Course.run_after_map, runStretches, runTimes_eq, ← Stretch.expand]
    rcases machine.run s stretch.expand with ⟨s', _ | error⟩
    · exact ih s'
    · rfl

/-- Carrying out a pattern is running its course. -/
theorem runPattern_eq_run (s : σ) (pattern : String) :
    machine.runPattern s pattern =
      (((Course.ofScript (Script.ofChars pattern.toList)).run machine s).1,
        ((Course.ofScript (Script.ofChars pattern.toList)).run machine s).2.map
          (Break.error pattern.toList)) :=
  runStretches_eq_run pattern.toList s (Script.ofChars pattern.toList)

end Machine

/-! ## Keeping to a course -/

namespace Descent

section Keeps

variable {σ α β : Type} {machine : Machine σ} {pattern : List Char} {p : Parser σ α}
  {q : α → Parser σ β} {start : Nat} {c : Course} {Q : α → Nat → Course → Prop}
  {R : β → Nat → Course → Prop} {fault : Fault} {position : Nat} {instr : Instr}

/-- What a part of a parser may come to. Either `Q` holds of what it returns, of where it ends and
of what is to come then, or it breaks off. -/
inductive Kept (machine : Machine σ) (pattern : List Char) (s : σ) (c : Course)
    (Q : α → Nat → Course → Prop) : EStateM.Result Error (Place σ) α → Prop where
  | goesOn (a : α) (stop : Nat) (s' : σ) (rest : Course) (hstop : stop ≤ pattern.length)
      (hrun : c.run machine s = rest.run machine s') (hQ : Q a stop rest) :
      Kept machine pattern s c Q (.ok a ⟨stop, s'⟩)
  | breaksOff (b : Break) (stop : Nat) (s' : σ) (hstop : stop ≤ pattern.length)
      (hrun : c.run machine s = (s', some b)) (hleaves : b.LeavesAt stop) :
      Kept machine pattern s c Q (.error (b.error pattern) ⟨stop, s'⟩)

/-- From `start` on, a part of a parser keeps to a course, so that `Q` holds where it ends. -/
def Keeps (machine : Machine σ) (pattern : List Char) (p : Parser σ α) (start : Nat) (c : Course)
    (Q : α → Nat → Course → Prop) : Prop :=
  start ≤ pattern.length → ∀ s, Kept machine pattern s c Q (p ⟨start, s⟩)

theorem keeps_bind
    (h : Keeps machine pattern p start c fun a stop rest =>
      Keeps machine pattern (q a) stop rest R) :
    Keeps machine pattern (p >>= q) start c R := by
  intro hstart s
  have hkept := h hstart s
  show Kept machine pattern s c R (EStateM.bind p q ⟨start, s⟩)
  unfold EStateM.bind
  generalize p ⟨start, s⟩ = result at hkept ⊢
  cases hkept with
  | breaksOff b stop s' hstop hrun hleaves => exact .breaksOff b stop s' hstop hrun hleaves
  | goesOn a stop s' rest hstop hrun hQ =>
    -- the second part begins where the first one has left off, with the rest of the course
    have hrest := hQ hstop s'
    show Kept machine pattern s c R (q a ⟨stop, s'⟩)
    generalize q a ⟨stop, s'⟩ = result at hrest ⊢
    cases hrest with
    | goesOn b stop s'' rest hstop hrun' hR =>
      exact .goesOn b stop s'' rest hstop (hrun.trans hrun') hR
    | breaksOff b stop s'' hstop hrun' hleaves =>
      exact .breaksOff b stop s'' hstop (hrun.trans hrun') hleaves

/-! ## Single steps -/

theorem keeps_pure {a : α} (h : Q a start c) : Keeps machine pattern (pure a) start c Q :=
  fun hstart s => .goesOn a start s c hstart rfl h

theorem keeps_cursor {Q : Nat → Nat → Course → Prop} (h : Q start start c) :
    Keeps machine pattern cursor start c Q :=
  fun hstart s => .goesOn start start s c hstart rfl h

theorem keeps_peek {Q : Option Char → Nat → Course → Prop} (h : Q pattern[start]? start c) :
    Keeps machine pattern (peek pattern) start c Q :=
  fun hstart s => .goesOn _ start s c hstart rfl h

theorem keeps_advance {Q : Unit → Nat → Course → Prop} {count : Nat}
    (hcount : start + count ≤ pattern.length) (h : Q () (start + count) c) :
    Keeps machine pattern (advance count) start c Q :=
  fun _ s => .goesOn () (start + count) s c hcount rfl h

theorem keeps_bump {Q : Option Char → Nat → Course → Prop}
    (hend : pattern[start]? = none → Q none start c)
    (hnext : ∀ ch, pattern[start]? = some ch → Q (some ch) (start + 1) c) :
    Keeps machine pattern (bump pattern) start c Q := by
  refine keeps_bind (keeps_peek (keeps_bind ?_))
  cases hch : pattern[start]? with
  | none => exact keeps_pure (keeps_pure (hend hch))
  | some ch =>
    have hlt : start < pattern.length := (List.getElem?_eq_some_iff.1 hch).1
    exact keeps_advance hlt (keeps_pure (hnext ch hch))

theorem keeps_failAt (h : c = .broken fault position) :
    Keeps machine pattern (failAt pattern fault position) start c Q := by
  subst h
  exact fun hstart s => .breaksOff (.rejection fault position) start s hstart rfl trivial

theorem keeps_fail (h : c = .broken fault start) :
    Keeps machine pattern (fail pattern fault) start c Q :=
  keeps_bind (keeps_cursor (keeps_failAt h))

theorem keeps_check {Q : Unit → Nat → Course → Prop} {good : Bool}
    (hgood : good = true → Q () start c) (hbad : good = false → c = .broken fault position) :
    Keeps machine pattern (check pattern good fault position) start c Q := by
  cases good with
  | true => exact keeps_pure (hgood rfl)
  | false => exact keeps_failAt (hbad rfl)

theorem emit_apply (s : σ) : emit machine pattern instr ⟨start, s⟩ =
    match machine s instr with
    | (s, none) => .ok () ⟨start, s⟩
    | (s, some error) => .error (Machine.refusal pattern start error) ⟨start, s⟩ := by
  show EStateM.run (emit machine pattern instr) ⟨start, s⟩ = _
  unfold emit
  rw [EStateM.run_bind, EStateM.run_get]
  simp only
  rcases machine s instr with ⟨s', _ | error⟩
  · rfl
  · rfl

theorem keeps_emit {Q : Unit → Nat → Course → Prop} (h : Q () start c) :
    Keeps machine pattern (emit machine pattern instr) start (c.after [(instr, start)]) Q := by
  intro hstart s
  have hrun := Course.run_after_single machine s instr start c
  rw [emit_apply]
  generalize machine s instr = result at hrun ⊢
  obtain ⟨s', _ | error⟩ := result
  · exact .goesOn () start s' c hstart hrun h
  · exact .breaksOff (.refusal error start) start s' hstart hrun rfl

/-! ## Rows of instructions -/

/-- What comes of handing instructions to the machine with the cursor at `start`. -/
def handedOver (pattern : List Char) (start : Nat) :
    σ × Option Error → EStateM.Result Error (Place σ) Unit
  | (s, none) => .ok () ⟨start, s⟩
  | (s, some error) => .error (Machine.refusal pattern start error) ⟨start, s⟩

/-- A part of a parser that hands these instructions to the machine and does nothing else. -/
def Issues (machine : Machine σ) (pattern : List Char) (p : Parser σ Unit) (instrs : List Instr) :
    Prop :=
  ∀ start s, p ⟨start, s⟩ = handedOver pattern start (machine.run s instrs)

variable {first second act : Parser σ Unit} {instrs instrs' : List Instr}

theorem issues_nothing : Issues machine pattern (pure ()) [] :=
  fun _ _ => rfl

theorem issues_emit : Issues machine pattern (emit machine pattern instr) [instr] := by
  intro start s
  rw [emit_apply, Machine.run]
  rcases machine s instr with ⟨s', _ | error⟩
  · rfl
  · rfl

theorem Issues.bind (hfirst : Issues machine pattern first instrs)
    (hsecond : Issues machine pattern second instrs') :
    Issues machine pattern (do first; second) (instrs ++ instrs') := by
  intro start s
  show EStateM.bind first (fun _ => second) ⟨start, s⟩ = _
  rw [EStateM.bind, hfirst, Machine.run_append]
  rcases machine.run s instrs with ⟨s', _ | error⟩
  · exact hsecond start s'
  · rfl

/-- What is done over and over. -/
theorem Issues.times (hact : Issues machine pattern act instrs) (count : Nat) :
    Issues machine pattern (times act count) (List.replicate count instrs).flatten := by
  induction count with
  | zero => exact issues_nothing
  | succ count ih => exact hact.bind ih

theorem issues_times_emit (instr : Instr) (count : Nat) :
    Issues machine pattern (times (emit machine pattern instr) count)
      (List.replicate count instr) := by
  have hemit : Issues machine pattern (emit machine pattern instr) [instr] := issues_emit
  rw [← List.flatten_replicate_singleton]
  exact hemit.times count

/-- An upper bound turns the operand on top into copies. -/
theorem issues_bounded (min max : Nat) :
    Issues machine pattern (bounded machine pattern min max) (copies min (some max)) := by
  by_cases hlt : min < max
  · have hoption : Issues machine pattern
        (do emit machine pattern .seq; emit machine pattern (.unary .optional))
        [.seq, .unary .optional] :=
      issues_emit.bind issues_emit
    simp only [bounded, copies, hlt, if_true]
    exact (issues_times_emit .dup _).bind (issues_emit.bind
      ((hoption.times _).bind (issues_times_emit .seq min)))
  · simp only [bounded, copies, hlt, if_false]
    exact (issues_times_emit .dup _).bind (issues_times_emit .seq _)

/-- So does a lower bound without an upper one. -/
theorem issues_unbounded (min : Nat) :
    Issues machine pattern (unbounded machine pattern min) (copies min none) :=
  (issues_times_emit .dup min).bind (issues_emit.bind (issues_times_emit .seq min))

/-- The calls are all made at the cursor, which stays there. -/
theorem Issues.keeps (h : Issues machine pattern act instrs) {Q : Unit → Nat → Course → Prop}
    (hQ : Q () start c) :
    Keeps machine pattern act start (c.after (instrs.map fun instr => (instr, start))) Q := by
  intro hstart s
  have hrun : (c.after (instrs.map fun instr => (instr, start))).run machine s =
      match machine.run s instrs with
      | (s, none) => c.run machine s
      | (s, some error) => (s, some (.refusal error start)) :=
    Course.run_after_map s instrs start c
  rw [h]
  generalize machine.run s instrs = result at hrun ⊢
  obtain ⟨s', _ | error⟩ := result
  · exact .goesOn () start s' c hstart hrun hQ
  · exact .breaksOff (.refusal error start) start s' hstart hrun rfl

theorem flatMap_calls_repetition (min : Nat) (max : Option Nat) (position : Nat) :
    (Pattern.repetition min max position).flatMap Stretch.calls =
      (copies min max).map fun instr => (instr, position) := by
  have hposition : ∀ stretch ∈ Pattern.repetition min max position,
      stretch.calls = stretch.expand.map fun instr => (instr, position) := by
    intro stretch hmem
    have heq : stretch.position = position := by
      cases max with
      | none => simp_all [Pattern.repetition, Pattern.unbounded, Stretch.single]; grind
      | some max => simp_all [Pattern.repetition, Pattern.bounded, Stretch.single]; grind
    rw [Stretch.calls, heq]
  rw [← expandAll_repetition min max position, Stretch.expandAll, List.map_flatMap]
  exact List.flatMap_congr hposition

end Keeps

end Descent

end Pattern

end LongestMatch
