import LongestMatch.Pattern.Builder
import LongestMatch.Proofs.Atoms
import LongestMatch.Proofs.Languages

/-!
# Automata that can be built

`Nfa.Built` is closed under the public operations: atoms, the algebra, groups and actions, and the
operators on languages. Everything that is built is well formed (`Built.wellFormed`), so the laws of
single operators apply wherever an automaton comes from.

* `language_seq`, `mem_actions_seq`, `language_or`, `mem_actions_or` — sequence and
  alternatives, whenever there is a result.
* `seq_error_iff`, `or_error_iff` — there is none exactly if there are too many groups;
  `Built.nextGroup_le` bounds those of an operand, `config_seq` and `config_or` say whose settings
  the result has.
* `built_withoutMatch`, `built_completeToSkip`, `built_ofPattern` — operations that are put together
  from others lead to nothing new.
-/

namespace LongestMatch

open scoped Computability

theorem Except.bind_eq_ok {ε α β : Type} {x : Except ε α} {f : α → Except ε β} {b : β} :
    x >>= f = .ok b ↔ ∃ a, x = .ok a ∧ f a = .ok b := by
  cases x with
  | error e => simp [bind, Except.bind]
  | ok a => simp [bind, Except.bind]

theorem Except.bind_eq_error {ε α β : Type} {x : Except ε α} {f : α → Except ε β} {e : ε} :
    x >>= f = .error e ↔ x = .error e ∨ ∃ a, x = .ok a ∧ f a = .error e := by
  cases x <;> simp [bind, Except.bind]

namespace Nfa

variable {nfa other whole : Nfa} {w : List Char} {a : ActionId}

/-! ## Operators with two operands -/

theorem seq_eq_ok : nfa.seq other = .ok whole ↔ ∃ both s t,
    nfa.takeIn other = .ok (both, s, t) ∧ { both.join both.last s with last := t } = whole := by
  rw [seq, Except.bind_eq_ok]
  constructor
  · intro h
    obtain ⟨⟨both, s, t⟩, htake, hwhole⟩ := h
    exact ⟨both, s, t, htake, Except.ok.inj hwhole⟩
  · intro h
    obtain ⟨both, s, t, htake, rfl⟩ := h
    exact ⟨(both, s, t), htake, rfl⟩

theorem or_eq_ok : nfa.or other = .ok whole ↔ ∃ both s t,
    nfa.takeIn other = .ok (both, s, t) ∧ (both.joinStarts s).joinLasts t = whole := by
  rw [Nfa.or, Except.bind_eq_ok]
  constructor
  · intro h
    obtain ⟨⟨both, s, t⟩, htake, hwhole⟩ := h
    exact ⟨both, s, t, htake, Except.ok.inj hwhole⟩
  · intro h
    obtain ⟨both, s, t, htake, rfl⟩ := h
    exact ⟨(both, s, t), htake, rfl⟩

theorem seq_error_iff : (∃ e, nfa.seq other = .error e) ↔
    maxGroups < nfa.nextGroup + other.nextGroup := by
  rw [← takeIn_error_iff, seq]
  cases nfa.takeIn other with
  | error e =>
    cases e
    exact ⟨fun _ => rfl, fun _ => ⟨_, rfl⟩⟩
  | ok both => simp [bind, Except.bind, pure, Except.pure]

theorem or_error_iff : (∃ e, nfa.or other = .error e) ↔
    maxGroups < nfa.nextGroup + other.nextGroup := by
  rw [← takeIn_error_iff, Nfa.or]
  cases nfa.takeIn other with
  | error e =>
    cases e
    exact ⟨fun _ => rfl, fun _ => ⟨_, rfl⟩⟩
  | ok both => simp [bind, Except.bind, pure, Except.pure]

/-! ### What is counted, and the settings -/

theorem exists_seq_eq_ok (hle : nfa.nextGroup + other.nextGroup ≤ maxGroups) :
    ∃ whole, nfa.seq other = .ok whole := by
  cases h : nfa.seq other with
  | ok whole => exact ⟨whole, rfl⟩
  | error e => exact absurd hle (Nat.not_le_of_lt (seq_error_iff.1 ⟨e, h⟩))

theorem exists_or_eq_ok (hle : nfa.nextGroup + other.nextGroup ≤ maxGroups) :
    ∃ whole, nfa.or other = .ok whole := by
  cases h : nfa.or other with
  | ok whole => exact ⟨whole, rfl⟩
  | error e => exact absurd hle (Nat.not_le_of_lt (or_error_iff.1 ⟨e, h⟩))

theorem takeIn_keeps {both : Nfa} {s t : Nat} (h : nfa.takeIn other = .ok (both, s, t)) :
    nfa.nextGroup + other.nextGroup ≤ maxGroups ∧
      both.nextGroup = nfa.nextGroup + other.nextGroup ∧ both.config = nfa.config := by
  unfold takeIn at h
  simp only at h
  split at h
  · cases h
  · next hle =>
    cases h
    exact ⟨Nat.le_of_not_lt hle, rfl, rfl⟩

theorem joinStarts_keeps (nfa : Nfa) (s : Nat) :
    (nfa.joinStarts s).nextGroup = nfa.nextGroup ∧ (nfa.joinStarts s).config = nfa.config := by
  unfold joinStarts
  split
  · exact ⟨nextGroup_join _ _, config_join _ _⟩
  · exact ⟨rfl, rfl⟩

theorem joinLasts_keeps (nfa : Nfa) (t : Nat) :
    (nfa.joinLasts t).nextGroup = nfa.nextGroup ∧ (nfa.joinLasts t).config = nfa.config := by
  unfold joinLasts
  split
  · exact ⟨rfl, rfl⟩
  · split
    · exact ⟨rfl, rfl⟩
    · exact ⟨rfl, rfl⟩

section Counted

variable (h : nfa.seq other = .ok whole)

include h

theorem add_nextGroup_le_of_seq : nfa.nextGroup + other.nextGroup ≤ maxGroups := by
  obtain ⟨both, s, t, htake, -⟩ := seq_eq_ok.1 h
  exact (takeIn_keeps htake).1

theorem nextGroup_seq : whole.nextGroup = nfa.nextGroup + other.nextGroup := by
  obtain ⟨both, s, t, htake, rfl⟩ := seq_eq_ok.1 h
  rw [← (takeIn_keeps htake).2.1]
  exact nextGroup_join _ _

theorem config_seq : whole.config = nfa.config := by
  obtain ⟨both, s, t, htake, rfl⟩ := seq_eq_ok.1 h
  rw [← (takeIn_keeps htake).2.2]
  exact config_join _ _

end Counted

section Counted

variable (h : nfa.or other = .ok whole)

include h

theorem add_nextGroup_le_of_or : nfa.nextGroup + other.nextGroup ≤ maxGroups := by
  obtain ⟨both, s, t, htake, -⟩ := or_eq_ok.1 h
  exact (takeIn_keeps htake).1

theorem nextGroup_or : whole.nextGroup = nfa.nextGroup + other.nextGroup := by
  obtain ⟨both, s, t, htake, rfl⟩ := or_eq_ok.1 h
  rw [(joinLasts_keeps _ t).1, (joinStarts_keeps _ s).1, (takeIn_keeps htake).2.1]

theorem config_or : whole.config = nfa.config := by
  obtain ⟨both, s, t, htake, rfl⟩ := or_eq_ok.1 h
  rw [(joinLasts_keeps _ t).2, (joinStarts_keeps _ s).2, (takeIn_keeps htake).2.2]

end Counted

theorem nextGroup_markGroup (h : nfa.markGroup = .ok whole) :
    whole.nextGroup = nfa.nextGroup + 1 ∧ nfa.nextGroup < maxGroups := by
  unfold markGroup at h
  split at h
  · cases h
  · next hlt =>
    cases h
    exact ⟨rfl, Nat.lt_of_not_le hlt⟩

theorem exists_markGroup (h : nfa.nextGroup < maxGroups) : ∃ whole, nfa.markGroup = .ok whole :=
  ⟨_, if_neg (Nat.not_le.2 h)⟩

theorem config_markGroup (h : nfa.markGroup = .ok whole) : whole.config = nfa.config := by
  unfold markGroup at h
  split at h
  · cases h
  · cases h
    exact config_modifyAll _ _ _

section Binary

variable (hn : nfa.WellFormed) (ho : other.WellFormed)

include hn ho

theorem language_seq (h : nfa.seq other = .ok whole) :
    whole.language = nfa.language * other.language := by
  obtain ⟨both, s, t, htake, rfl⟩ := seq_eq_ok.1 h
  have hb := (beside_of_takeIn hn ho htake).1
  ext w
  show Trail (both.join both.last s).Edge (both.join both.last s).start w t ↔ _
  rw [start_join, hb.start_eq, hb.last_eq, hb.trail_seq, Language.mem_mul]
  constructor
  · intro h'
    obtain ⟨u, v, rfl, hu, hv⟩ := h'
    exact ⟨u, hu, v, hv, rfl⟩
  · intro h'
    obtain ⟨u, hu, v, hv, rfl⟩ := h'
    exact ⟨u, v, rfl, hu, hv⟩

theorem sees_seq {B : Badge → Prop} (hblank : ¬B Badge.blank) (h : nfa.seq other = .ok whole) :
    whole.Sees B whole.start w ↔ nfa.Sees B nfa.start w ∨ ∃ u v, w = u ++ v ∧ u ∈ nfa.language ∧
      other.Sees (fun b => B (b.shift nfa.nextGroup)) other.start v := by
  obtain ⟨both, s, t, htake, rfl⟩ := seq_eq_ok.1 h
  have hb := (beside_of_takeIn hn ho htake).1
  show (both.join both.last s).Sees B (both.join both.last s).start w ↔ _
  rw [start_join, hb.start_eq, hb.last_eq, hb.sees_seq hblank]

theorem mem_actions_seq (h : nfa.seq other = .ok whole) : a ∈ whole.actions w ↔
    a ∈ nfa.actions w ∨ ∃ u v, w = u ++ v ∧ u ∈ nfa.language ∧ a ∈ other.actions v :=
  sees_seq hn ho (Badge.not_acts_blank a) h

theorem wellFormed_seq (h : nfa.seq other = .ok whole) : whole.WellFormed := by
  obtain ⟨both, s, t, htake, rfl⟩ := seq_eq_ok.1 h
  have hb := (beside_of_takeIn hn ho htake).1
  rw [hb.last_eq]
  exact hb.wellFormed_seq

/-- The two halves of an alternative: starts that became one, and then last states that did. -/
theorem exists_joined_of_or (h : nfa.or other = .ok whole) : ∃ both joined s t,
    nfa.Beside other both s t ∧ nfa.StartsJoined both joined s t ∧
      joined.LastsJoined whole t ∧ joined.joinLasts t = whole := by
  obtain ⟨both, s, t, htake, rfl⟩ := or_eq_ok.1 h
  have hb := (beside_of_takeIn hn ho htake).1
  have hs := hb.startsJoined
  exact ⟨both, both.joinStarts s, s, t, hb, hs, (hs.twoLasts hb).lastsJoined, rfl⟩

theorem language_or (h : nfa.or other = .ok whole) :
    whole.language = nfa.language + other.language := by
  obtain ⟨both, joined, s, t, hb, hs, hl, rfl⟩ := exists_joined_of_or hn ho h
  ext w
  rw [hb.language_or hs hl, Language.mem_add]

theorem sees_or {B : Badge → Prop} (hblank : ¬B Badge.blank) (h : nfa.or other = .ok whole) :
    whole.Sees B whole.start w ↔ nfa.Sees B nfa.start w ∨
      other.Sees (fun b => B (b.shift nfa.nextGroup)) other.start w := by
  obtain ⟨both, joined, s, t, hb, hs, hl, rfl⟩ := exists_joined_of_or hn ho h
  exact hb.sees_or hs hl hblank

theorem mem_actions_or (h : nfa.or other = .ok whole) :
    a ∈ whole.actions w ↔ a ∈ nfa.actions w ∨ a ∈ other.actions w :=
  sees_or hn ho (Badge.not_acts_blank a) h

theorem mem_recognized_or (h : nfa.or other = .ok whole) :
    w ∈ whole.recognized ↔ w ∈ nfa.recognized ∨ w ∈ other.recognized := by
  have hactions : (whole.actions w).Nonempty ↔
      (nfa.actions w).Nonempty ∨ (other.actions w).Nonempty := by
    simp only [Set.Nonempty, mem_actions_or hn ho h, exists_or]
  rw [mem_recognized_iff, mem_recognized_iff, mem_recognized_iff, language_or hn ho h,
    Language.mem_add, hactions]
  exact or_or_or_comm

theorem wellFormed_or (h : nfa.or other = .ok whole) : whole.WellFormed := by
  obtain ⟨both, joined, s, t, hb, hs, hl, rfl⟩ := exists_joined_of_or hn ho h
  exact hb.wellFormed_or hs hl

end Binary

/-! ## Repetition and options -/

section Unary

variable (hn : nfa.WellFormed)

include hn

theorem language_star : nfa.star.language = nfa.language∗ := by
  rw [← Language.one_add_kstar_mul_self_eq_kstar, add_comm]
  ext w
  rw [star, mem_language_loop hn, Language.mem_add, Language.mem_one]
  simp

theorem language_plus : nfa.plus.language = nfa.language * nfa.language∗ := by
  rw [← Language.mul_self_kstar_comm]
  ext w
  rw [plus, mem_language_loop hn]
  simp

theorem language_optional : nfa.optional.language = nfa.language + 1 := by
  ext w
  rw [mem_language_optional hn, Language.mem_add, Language.mem_one]

end Unary

/-! ## Everything that can be built -/

/-- The automata that the public operations lead to. -/
inductive Built : Nfa → Prop where
  | empty (config : Config) : Built (empty config)
  | literal (config : Config) (s : String) : Built (literal config s)
  | charSet (config : Config) (ranges : List CharRange) (inverted : Bool) :
      Built (charSet config ranges inverted)
  | anyChar (config : Config) : Built (anyChar config)
  | copy {nfa : Nfa} : Built nfa → Built nfa.copy
  | seq {nfa other whole : Nfa} :
      Built nfa → Built other → nfa.seq other = .ok whole → Built whole
  | or {nfa other whole : Nfa} :
      Built nfa → Built other → nfa.or other = .ok whole → Built whole
  | star {nfa : Nfa} : Built nfa → Built nfa.star
  | plus {nfa : Nfa} : Built nfa → Built nfa.plus
  | optional {nfa : Nfa} : Built nfa → Built nfa.optional
  | invert {nfa : Nfa} : Built nfa → Built nfa.invert
  | shortest {nfa : Nfa} : Built nfa → Built nfa.shortest
  | allPrefixes {nfa : Nfa} : Built nfa → Built nfa.allPrefixes
  | markGroup {nfa whole : Nfa} : Built nfa → nfa.markGroup = .ok whole → Built whole
  | addAction {nfa : Nfa} (action : ActionId) : Built nfa → Built (nfa.addAction action)

theorem Built.wellFormed (h : nfa.Built) : nfa.WellFormed := by
  induction h with
  | empty config => exact wellFormed_empty config
  | literal config s => exact wellFormed_literal config s
  | charSet config ranges inverted => exact wellFormed_charSet config ranges inverted
  | anyChar config => exact wellFormed_anyChar config
  | copy _ ih => exact wellFormed_copy ih
  | seq _ _ h ihn iho => exact wellFormed_seq ihn iho h
  | or _ _ h ihn iho => exact wellFormed_or ihn iho h
  | star _ ih => exact wellFormed_loop ih true
  | plus _ ih => exact wellFormed_loop ih false
  | optional _ ih => exact wellFormed_optional ih
  | invert => exact wellFormed_invert _
  | shortest => exact wellFormed_shortest _
  | allPrefixes => exact wellFormed_allPrefixes _
  | markGroup _ h ih => exact (sameGraph_markGroup h).wellFormed ih
  | addAction action _ ih => exact wellFormed_addAction ih action

/-- The groups are never more than one action may have. -/
theorem Built.nextGroup_le (h : nfa.Built) : nfa.nextGroup ≤ maxGroups := by
  induction h with
  | empty => exact Nat.zero_le _
  | literal config s => exact (nextGroup_literal config s).trans_le (Nat.zero_le _)
  | charSet => exact Nat.zero_le _
  | anyChar => exact Nat.zero_le _
  | copy _ ih => exact ih
  | seq _ _ h => exact (nextGroup_seq h).trans_le (add_nextGroup_le_of_seq h)
  | or _ _ h => exact (nextGroup_or h).trans_le (add_nextGroup_le_of_or h)
  | star _ ih => exact ih
  | plus _ ih => exact ih
  | optional _ ih => exact ih
  | invert => exact Nat.zero_le _
  | shortest => exact Nat.zero_le _
  | allPrefixes => exact Nat.zero_le _
  | markGroup _ h =>
    obtain ⟨hgroups, hlt⟩ := nextGroup_markGroup h
    omega
  | addAction => exact Nat.zero_le _

/-! ## Operations put together from others -/

theorem built_anywhere (hn : nfa.Built) (h : nfa.anywhere = .ok whole) : whole.Built := by
  obtain ⟨opened, hopened, h⟩ := Except.bind_eq_ok.1 h
  obtain ⟨closed, hclosed, h⟩ := Except.bind_eq_ok.1 h
  cases h
  have hany : (anyChar nfa.config).star.Built := .star (.anyChar nfa.config)
  exact .optional (.seq (.seq hany hn hopened) hany hclosed)

theorem built_withoutMatch (hn : nfa.Built) (h : nfa.withoutMatch = .ok whole) : whole.Built := by
  obtain ⟨inside, hinside, h⟩ := Except.bind_eq_ok.1 h
  cases h
  exact .invert (built_anywhere hn hinside)

theorem built_completeToSkip (hn : nfa.Built) {fallback : ActionId}
    (h : nfa.completeToSkip fallback = .ok whole) : whole.Built := by
  obtain ⟨settled, hsettled, h⟩ := Except.bind_eq_ok.1 h
  have hset : settled.Built := .or (.invert (.allPrefixes (.copy hn))) (.copy hn) hsettled
  exact .or hn (.addAction fallback (.invert hset)) h

end Nfa

/-! ## Patterns -/

namespace Pattern

section Machine

variable {σ : Type} {machine : Machine σ} {P : σ → Prop}

/-- What every instruction keeps, a pattern keeps. -/
theorem Machine.run_invariant (hP : ∀ s instr, P s → P (machine s instr).1) {s : σ} (hs : P s)
    (instrs : List Instr) : P (machine.run s instrs).1 := by
  induction instrs generalizing s with
  | nil => exact hs
  | cons instr rest ih =>
    have hone := hP s instr hs
    rw [run]
    split
    · next hstep =>
      rw [hstep] at hone
      exact ih hone
    · next hstep =>
      rw [hstep] at hone
      exact hone

theorem Machine.runTimes_invariant (hP : ∀ s instr, P s → P (machine s instr).1) {s : σ}
    (hs : P s) (instrs : List Instr) (times : Nat) : P (machine.runTimes instrs s times).1 := by
  induction times generalizing s with
  | zero => exact hs
  | succ times ih =>
    have hone := run_invariant hP hs instrs
    rw [runTimes]
    split
    · next hstep =>
      rw [hstep] at hone
      exact ih hone
    · next hstep =>
      rw [hstep] at hone
      exact hone

theorem Machine.runStretches_invariant (hP : ∀ s instr, P s → P (machine s instr).1) {s : σ}
    (hs : P s) (pattern : List Char) (stretches : List Stretch) :
    P (machine.runStretches pattern s stretches).1 := by
  induction stretches generalizing s with
  | nil => exact hs
  | cons stretch rest ih =>
    have hone := runTimes_invariant hP hs stretch.instrs stretch.times
    rw [runStretches]
    split
    · next hstep =>
      rw [hstep] at hone
      exact ih hone
    · next hstep =>
      rw [hstep] at hone
      exact hone

theorem Machine.runPattern_invariant (hP : ∀ s instr, P s → P (machine s instr).1) {s : σ}
    (hs : P s) (pattern : String) : P (machine.runPattern s pattern).1 := by
  have hall := runStretches_invariant hP hs pattern.toList (Script.ofChars pattern.toList).stretches
  rw [runPattern]
  split
  · next hrun =>
    rw [hrun] at hall
    exact hall
  · next hrun =>
    rw [hrun] at hall
    exact hall

end Machine

/-- The atoms with some settings have the property, and the instructions hand it on. -/
structure Builder.Closed (config : Config) (P : Nfa → Prop) : Prop where
  charSet : ∀ ranges inverted, P (Nfa.charSet config ranges inverted)
  anyChar : P (Nfa.anyChar config)
  literal : ∀ s, P (Nfa.literal config s)
  copy : ∀ nfa : Nfa, P nfa → P nfa.copy
  seq : ∀ nfa other whole : Nfa, P nfa → P other → nfa.seq other = .ok whole → P whole
  or : ∀ nfa other whole : Nfa, P nfa → P other → nfa.or other = .ok whole → P whole
  unary : ∀ (op : Unary) (nfa whole : Nfa), P nfa → op.apply nfa = .ok whole → P whole
  markGroup : ∀ nfa whole : Nfa, P nfa → nfa.markGroup = .ok whole → P whole

/-- The settings are these, and all automata on the stack have the property. -/
structure Builder.All (config : Config) (P : Nfa → Prop) (b : Builder) : Prop where
  config_eq : b.config = config
  stack : ∀ nfa ∈ b.stack, P nfa

section All

variable {config : Config} {P : Nfa → Prop} {b : Builder}

theorem Builder.all_pushResult {rest : List Nfa} {result : Except GroupOverflow Nfa}
    (hb : b.All config P) (hrest : ∀ nfa ∈ rest, P nfa) (hresult : ∀ nfa, result = .ok nfa → P nfa) :
    (b.pushResult rest result).1.All config P := by
  cases result with
  | ok nfa => exact ⟨hb.config_eq, List.forall_mem_cons.2 ⟨hresult nfa rfl, hrest⟩⟩
  | error e =>
    cases e
    exact ⟨hb.config_eq, hrest⟩

theorem Builder.all_unary {op : Nfa → Except GroupOverflow Nfa}
    (hop : ∀ nfa whole : Nfa, P nfa → op nfa = .ok whole → P whole) (hb : b.All config P) :
    (b.unary op).1.All config P := by
  unfold unary
  split
  · exact hb
  · next top rest hstack =>
    have hall := hb.stack
    rw [hstack, List.forall_mem_cons] at hall
    exact all_pushResult hb hall.2 fun nfa h => hop top nfa hall.1 h

theorem Builder.all_binary {op : Nfa → Nfa → Except GroupOverflow Nfa}
    (hop : ∀ nfa other whole : Nfa, P nfa → P other → op nfa other = .ok whole → P whole)
    (hb : b.All config P) : (b.binary op).1.All config P := by
  unfold binary
  split
  · next right left rest hstack =>
    have hall := hb.stack
    rw [hstack, List.forall_mem_cons, List.forall_mem_cons] at hall
    exact all_pushResult hb hall.2.2 fun nfa h => hop left right nfa hall.2.1 hall.1 h
  · exact ⟨hb.config_eq, fun nfa h => by cases h⟩

theorem Builder.all_push {nfa : Nfa} (hn : P nfa) (hb : b.All config P) :
    (b.push nfa).1.All config P :=
  ⟨hb.config_eq, List.forall_mem_cons.2 ⟨hn, hb.stack⟩⟩

theorem Builder.all_exec (hP : Closed config P) (b : Builder) (instr : Instr)
    (hb : b.All config P) : (exec b instr).1.All config P := by
  have hconfig := hb.config_eq
  cases instr with
  | set ranges inverted => exact all_push (hconfig ▸ hP.charSet ranges inverted) hb
  | any => exact all_push (hconfig ▸ hP.anyChar) hb
  | text s => exact all_push (hconfig ▸ hP.literal s) hb
  | swap =>
    show b.swap.1.All config P
    unfold swap
    split
    · next top second rest hstack =>
      have hall := hb.stack
      rw [hstack, List.forall_mem_cons, List.forall_mem_cons] at hall
      obtain ⟨htop, hsecond, hrest⟩ := hall
      exact ⟨hconfig, List.forall_mem_cons.2 ⟨hsecond, List.forall_mem_cons.2 ⟨htop, hrest⟩⟩⟩
    · exact hb
  | dup =>
    show b.dup.1.All config P
    unfold dup
    split
    · next top rest hstack =>
      exact all_push (hP.copy top (hb.stack top (hstack ▸ List.mem_cons_self))) hb
    · exact hb
  | or => exact all_binary hP.or hb
  | seq => exact all_binary hP.seq hb
  | unary op => exact all_unary (hP.unary op) hb
  | group => exact all_unary hP.markGroup hb

end All

theorem built_apply {op : Unary} {nfa whole : Nfa} (hn : nfa.Built)
    (h : op.apply nfa = .ok whole) : whole.Built := by
  cases op with
  | withoutMatch => exact Nfa.built_withoutMatch hn h
  | star =>
    cases h
    exact .star hn
  | plus =>
    cases h
    exact .plus hn
  | optional =>
    cases h
    exact .optional hn
  | invert =>
    cases h
    exact .invert hn
  | shortest =>
    cases h
    exact .shortest hn
  | allPrefixes =>
    cases h
    exact .allPrefixes hn

theorem config_apply {op : Unary} {nfa whole : Nfa} (h : op.apply nfa = .ok whole) :
    whole.config = nfa.config := by
  cases op with
  | withoutMatch =>
    obtain ⟨inside, hinside, h⟩ := Except.bind_eq_ok.1 h
    obtain ⟨opened, hopened, hinside⟩ := Except.bind_eq_ok.1 hinside
    obtain ⟨closed, hclosed, hinside⟩ := Except.bind_eq_ok.1 hinside
    cases h
    cases hinside
    have hconfig : opened.config = (Nfa.anyChar nfa.config).star.config := Nfa.config_seq hopened
    exact (Nfa.config_seq hclosed).trans hconfig
  | star =>
    cases h
    rfl
  | plus =>
    cases h
    rfl
  | optional =>
    cases h
    rfl
  | invert =>
    cases h
    rfl
  | shortest =>
    cases h
    rfl
  | allPrefixes =>
    cases h
    rfl

theorem Builder.closed_built (config : Config) : Closed config Nfa.Built where
  charSet ranges inverted := .charSet config ranges inverted
  anyChar := .anyChar config
  literal s := .literal config s
  copy _ hn := .copy hn
  seq _ _ _ hn ho h := .seq hn ho h
  or _ _ _ hn ho h := .or hn ho h
  unary _ _ _ hn h := built_apply hn h
  markGroup _ _ hn h := .markGroup hn h

theorem Builder.closed_config (config : Config) : Closed config fun nfa => nfa.config = config where
  charSet _ _ := rfl
  anyChar := rfl
  literal s := Nfa.config_literal config s
  copy _ hn := hn
  seq _ _ _ hn _ h := (Nfa.config_seq h).trans hn
  or _ _ _ hn _ h := (Nfa.config_or h).trans hn
  unary _ _ _ hn h := (config_apply h).trans hn
  markGroup _ _ hn h := (Nfa.config_markGroup h).trans hn

end Pattern

namespace Nfa

variable {nfa whole : Nfa} {config : Config} {pattern : String}

open Pattern (Builder)

/-- What the instructions hand on, the automaton of a pattern has. -/
theorem ofPattern_closed {P : Nfa → Prop} (hP : Builder.Closed config P)
    (h : ofPattern config pattern = .ok whole) : P whole := by
  have hall := Pattern.Machine.runPattern_invariant (Builder.all_exec hP)
    (s := { config }) ⟨rfl, fun nfa h => by cases h⟩ pattern
  unfold ofPattern at h
  split at h
  · cases h
  · next b hrun =>
    rw [hrun] at hall
    unfold Pattern.Builder.finish at h
    split at h
    · next nfa hstack =>
      cases h
      exact hall.stack whole (hstack ▸ List.mem_singleton.2 rfl)
    · cases h

theorem built_ofPattern (h : ofPattern config pattern = .ok whole) : whole.Built :=
  ofPattern_closed (Builder.closed_built config) h

/-- The settings of a pattern's automaton are those that it was made with. -/
theorem config_ofPattern (h : ofPattern config pattern = .ok whole) : whole.config = config :=
  ofPattern_closed (Builder.closed_config config) h

theorem exists_of_isOk (pattern : String) (h : (ofPattern {} pattern).isOk = true) :
    ∃ nfa, ofPattern {} pattern = .ok nfa := by
  cases hpattern : ofPattern {} pattern with
  | ok nfa => exact ⟨nfa, rfl⟩
  | error e =>
    rw [hpattern] at h
    cases h

theorem ofOverflow_eq_ok {α : Type} {x : Except GroupOverflow α} {y : α} :
    Error.ofOverflow x = .ok y ↔ x = .ok y := by
  cases x with
  | error e =>
    cases e
    simp [Error.ofOverflow]
  | ok x => simp [Error.ofOverflow]

theorem built_orPattern (hn : nfa.Built) {action : ActionId}
    (h : nfa.orPattern pattern action = .ok whole) : whole.Built := by
  obtain ⟨other, hother, h⟩ := Except.bind_eq_ok.1 h
  exact .or hn (.addAction action (built_ofPattern hother)) (ofOverflow_eq_ok.1 h)

theorem built_seqPattern (hn : nfa.Built) (h : nfa.seqPattern pattern = .ok whole) :
    whole.Built := by
  obtain ⟨other, hother, h⟩ := Except.bind_eq_ok.1 h
  exact .seq hn (built_ofPattern hother) (ofOverflow_eq_ok.1 h)

end Nfa

end LongestMatch
