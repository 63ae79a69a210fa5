import LongestMatch.Proofs.Construction

/-!
# Settings leave the graph alone

Settings decide how the tables of a compiled automaton are stored. Operators on languages read these
tables back, but what they read does not depend on the form, so all operators commute with a change
of settings (`Nfa.withConfig`): the graph of the result is the same, and the result has the settings
of its first operand. The machine that builds the automaton of a pattern does so step by step
(`Pattern.Builder.exec_withConfig`, `Pattern.Machine.runPattern_map`).
-/

namespace LongestMatch

namespace Nfa

/-- The automaton with other settings. -/
def withConfig (config : Config) (nfa : Nfa) : Nfa :=
  { nfa with config }

variable {nfa other : Nfa} {config config' : Config}

/-! ## Reading tables back -/

theorem successors_withConfig (accept : Option Nat) :
    (nfa.withConfig config).successors accept = nfa.successors accept := by
  funext set
  rw [successors, successors, closures_eq_filterMap, closures_eq_filterMap]
  rfl

theorem exploreSubsets_withConfig (accept : Option Nat) :
    (nfa.withConfig config).exploreSubsets accept = nfa.exploreSubsets accept := by
  unfold exploreSubsets
  congr 1
  exact successors_withConfig accept

theorem graph_withConfig (accept : Option Nat) :
    (nfa.withConfig config).graph accept = nfa.graph accept := by
  rw [graph, graph, exploreSubsets_withConfig]

/-- The recognizer is made of rows that were read back from tables, whatever form they had. -/
theorem ofNfa_withConfig : Recognizer.ofNfa (nfa.withConfig config) = Recognizer.ofNfa nfa := by
  rw [Recognizer.ofNfa_eq, Recognizer.ofNfa_eq, graph_withConfig, exploreSubsets_withConfig]
  rfl

theorem invert_withConfig : (nfa.withConfig config).invert = nfa.invert.withConfig config := by
  rw [invert, ofNfa_withConfig]
  rfl

theorem shortest_withConfig : (nfa.withConfig config).shortest = nfa.shortest.withConfig config := by
  rw [shortest, ofNfa_withConfig]
  rfl

theorem allPrefixes_withConfig :
    (nfa.withConfig config).allPrefixes = nfa.allPrefixes.withConfig config := by
  rw [allPrefixes, ofNfa_withConfig]
  rfl

/-! ## The algebra -/

theorem spell_withConfig (source : Nat) (text : List Char) :
    (nfa.withConfig config).spell source text = (nfa.spell source text).withConfig config := by
  induction text generalizing nfa source with
  | nil => rfl
  | cons c text ih =>
    cases text with
    | nil => rfl
    | cons d rest =>
      let grown : Nfa := { nfa with states := nfa.states.push {} }
      let longer := grown.modify source fun s =>
        { s with trans := s.trans ++ [⟨CharRange.single c, nfa.states.size⟩] }
      show (longer.withConfig config).spell nfa.states.size (d :: rest) = _
      exact ih nfa.states.size

theorem literal_withConfig (s : String) :
    (literal config s).withConfig config' = literal config' s := by
  have hspell : ((empty config).withConfig config').spell (empty config).start s.toList =
      (literal config s).withConfig config' := spell_withConfig _ _
  exact hspell.symm

theorem modifyAll_withConfig (ids : List Nat) (f : Nat → State → State) :
    (nfa.withConfig config).modifyAll ids f = (nfa.modifyAll ids f).withConfig config := by
  induction ids generalizing nfa with
  | nil => rfl
  | cons id ids ih =>
    show ((nfa.modify id (f id)).withConfig config).modifyAll ids f = _
    exact ih

theorem takeIn_withConfig : (nfa.withConfig config).takeIn (other.withConfig config') =
    (fun t => (t.1.withConfig config, t.2)) <$> nfa.takeIn other := by
  by_cases h : maxGroups < nfa.nextGroup + other.nextGroup
  · have h' : maxGroups < (nfa.withConfig config).nextGroup + (other.withConfig config').nextGroup :=
      h
    simp only [takeIn, if_pos h, if_pos h']
    rfl
  · have h' : ¬maxGroups < (nfa.withConfig config).nextGroup + (other.withConfig config').nextGroup :=
      h
    simp only [takeIn, if_neg h, if_neg h']
    rfl

theorem join_withConfig (source goal : Nat) :
    (nfa.withConfig config).join source goal = (nfa.join source goal).withConfig config := by
  unfold join
  rw [apply_ite (withConfig config), apply_ite (withConfig config)]
  rfl

theorem joinStarts_withConfig (goal : Nat) :
    (nfa.withConfig config).joinStarts goal = (nfa.joinStarts goal).withConfig config := by
  unfold joinStarts
  rw [join_withConfig, apply_ite (withConfig config)]
  rfl

theorem joinLasts_withConfig (goal : Nat) :
    (nfa.withConfig config).joinLasts goal = (nfa.joinLasts goal).withConfig config := by
  unfold joinLasts
  rw [apply_ite (withConfig config), apply_ite (withConfig config)]
  rfl

theorem seq_withConfig : (nfa.withConfig config).seq (other.withConfig config') =
    withConfig config <$> nfa.seq other := by
  simp only [seq, takeIn_withConfig, bind_map_left, map_bind, map_pure, join_withConfig]
  rfl

theorem or_withConfig : (nfa.withConfig config).or (other.withConfig config') =
    withConfig config <$> nfa.or other := by
  simp only [or, takeIn_withConfig, bind_map_left, map_bind, map_pure, joinStarts_withConfig,
    joinLasts_withConfig]

theorem markGroup_withConfig :
    (nfa.withConfig config).markGroup = withConfig config <$> nfa.markGroup := by
  by_cases h : maxGroups ≤ nfa.nextGroup
  · have h' : maxGroups ≤ (nfa.withConfig config).nextGroup := h
    simp only [markGroup, if_pos h, if_pos h']
    rfl
  · have h' : ¬maxGroups ≤ (nfa.withConfig config).nextGroup := h
    simp only [markGroup, if_neg h, if_neg h', modifyAll_withConfig]
    rfl

theorem addAction_withConfig (action : ActionId) :
    (nfa.withConfig config).addAction action = (nfa.addAction action).withConfig config := by
  let armed := nfa.modify nfa.last fun s => { s with action := some action }
  let ids := (armed.reachable [armed.start]).toList
  have hbound : (armed.withConfig config).modifyAll ids (fun _ => State.bind action) =
      (armed.modifyAll ids fun _ => State.bind action).withConfig config := modifyAll_withConfig _ _
  exact congrArg (fun nfa : Nfa => { nfa with nextGroup := 0 }) hbound

/-! ## Operators put together from others -/

theorem anywhere_withConfig :
    (nfa.withConfig config).anywhere = withConfig config <$> nfa.anywhere := by
  have hany : (anyChar (nfa.withConfig config).config).star =
      (anyChar nfa.config).star.withConfig config := rfl
  simp only [anywhere, hany, seq_withConfig, bind_map_left, map_bind, map_pure]
  rfl

theorem withoutMatch_withConfig :
    (nfa.withConfig config).withoutMatch = withConfig config <$> nfa.withoutMatch := by
  simp only [withoutMatch, anywhere_withConfig, bind_map_left, map_bind, map_pure,
    invert_withConfig]

theorem settled_withConfig :
    (nfa.withConfig config).settled = withConfig config <$> nfa.settled := by
  have hcopy : (nfa.withConfig config).copy = nfa.copy.withConfig config := rfl
  rw [settled, hcopy, allPrefixes_withConfig, invert_withConfig, or_withConfig, settled]

theorem completeToSkip_withConfig (fallback : ActionId) :
    (nfa.withConfig config).completeToSkip fallback =
      withConfig config <$> nfa.completeToSkip fallback := by
  simp only [completeToSkip, settled_withConfig, bind_map_left, map_bind, invert_withConfig,
    addAction_withConfig, or_withConfig]

end Nfa

/-! ## Patterns -/

namespace Pattern

section Machine

variable {σ τ : Type} {machine : Machine σ} {machine' : Machine τ} {f : σ → τ}
  (hstep : ∀ s instr, machine' (f s) instr = Prod.map f id (machine s instr))

include hstep

/-- A machine that follows another one step by step follows it through a pattern. -/
theorem Machine.run_map (s : σ) (instrs : List Instr) :
    machine'.run (f s) instrs = Prod.map f id (machine.run s instrs) := by
  induction instrs generalizing s with
  | nil => rfl
  | cons instr rest ih =>
    rw [run, run, hstep]
    rcases machine s instr with ⟨s, _ | error⟩
    · exact ih s
    · rfl

theorem Machine.runTimes_map (s : σ) (instrs : List Instr) (times : Nat) :
    machine'.runTimes instrs (f s) times = Prod.map f id (machine.runTimes instrs s times) := by
  induction times generalizing s with
  | zero => rfl
  | succ times ih =>
    rw [runTimes, runTimes, run_map hstep]
    rcases machine.run s instrs with ⟨s, _ | error⟩
    · exact ih s
    · rfl

theorem Machine.runStretches_map (pattern : List Char) (s : σ) (stretches : List Stretch) :
    machine'.runStretches pattern (f s) stretches =
      Prod.map f id (machine.runStretches pattern s stretches) := by
  induction stretches generalizing s with
  | nil => rfl
  | cons stretch rest ih =>
    rw [runStretches, runStretches, runTimes_map hstep]
    rcases machine.runTimes stretch.instrs s stretch.times with ⟨s, _ | error⟩
    · exact ih s
    · rfl

theorem Machine.runPattern_map (s : σ) (pattern : String) :
    machine'.runPattern (f s) pattern = Prod.map f id (machine.runPattern s pattern) := by
  rw [runPattern, runPattern, runStretches_map hstep]
  rcases machine.runStretches pattern.toList s (Script.ofChars pattern.toList).stretches with
    ⟨s, _ | error⟩
  · rfl
  · rfl

end Machine

namespace Builder

/-- The builder with other settings, for the automata on its stack and for new ones. -/
def withConfig (config : Config) (b : Builder) : Builder :=
  ⟨b.stack.map (Nfa.withConfig config), config⟩

variable {config : Config}

theorem pushResult_withConfig (b : Builder) (rest : List Nfa) (result : Except GroupOverflow Nfa) :
    (b.withConfig config).pushResult (rest.map (Nfa.withConfig config))
        (Nfa.withConfig config <$> result) =
      Prod.map (withConfig config) id (b.pushResult rest result) := by
  rcases result with ⟨⟨⟩⟩ | nfa
  · rfl
  · rfl

theorem unary_withConfig {op : Nfa → Except GroupOverflow Nfa}
    (hop : ∀ nfa : Nfa, op (nfa.withConfig config) = Nfa.withConfig config <$> op nfa)
    (b : Builder) :
    (b.withConfig config).unary op = Prod.map (withConfig config) id (b.unary op) := by
  obtain ⟨_ | ⟨top, rest⟩, old⟩ := b
  · rfl
  · show pushResult _ (rest.map (Nfa.withConfig config)) (op (top.withConfig config)) = _
    rw [hop]
    exact pushResult_withConfig ⟨top :: rest, old⟩ rest (op top)

theorem binary_withConfig {op : Nfa → Nfa → Except GroupOverflow Nfa}
    (hop : ∀ nfa other : Nfa, op (nfa.withConfig config) (other.withConfig config) =
      Nfa.withConfig config <$> op nfa other) (b : Builder) :
    (b.withConfig config).binary op = Prod.map (withConfig config) id (b.binary op) := by
  obtain ⟨_ | ⟨right, _ | ⟨left, rest⟩⟩, old⟩ := b
  · rfl
  · rfl
  · show pushResult _ (rest.map (Nfa.withConfig config))
      (op (left.withConfig config) (right.withConfig config)) = _
    rw [hop]
    exact pushResult_withConfig ⟨right :: left :: rest, old⟩ rest (op left right)

theorem apply_withConfig (op : Unary) (nfa : Nfa) :
    op.apply (nfa.withConfig config) = Nfa.withConfig config <$> op.apply nfa := by
  cases op with
  | star => rfl
  | plus => rfl
  | optional => rfl
  | withoutMatch => exact Nfa.withoutMatch_withConfig
  | invert => exact congrArg Except.ok Nfa.invert_withConfig
  | shortest => exact congrArg Except.ok Nfa.shortest_withConfig
  | allPrefixes => exact congrArg Except.ok Nfa.allPrefixes_withConfig

/-- With other settings an instruction leaves the same stack, but for the settings. -/
theorem exec_withConfig (b : Builder) (instr : Instr) :
    exec (b.withConfig config) instr = Prod.map (withConfig config) id (exec b instr) := by
  cases instr with
  | set ranges inverted => rfl
  | any => rfl
  | text s =>
    have hliteral : (Nfa.literal b.config s).withConfig config = Nfa.literal config s :=
      Nfa.literal_withConfig s
    show push _ (Nfa.literal config s) = _
    rw [← hliteral]
    rfl
  | swap => obtain ⟨_ | ⟨top, _ | ⟨second, rest⟩⟩, old⟩ := b <;> rfl
  | dup => obtain ⟨_ | ⟨top, rest⟩, old⟩ := b <;> rfl
  | or => exact binary_withConfig (fun _ _ => Nfa.or_withConfig) b
  | seq => exact binary_withConfig (fun _ _ => Nfa.seq_withConfig) b
  | unary op => exact unary_withConfig (apply_withConfig op) b
  | group => exact unary_withConfig (fun _ => Nfa.markGroup_withConfig) b

theorem finish_withConfig (b : Builder) :
    (b.withConfig config).finish = Nfa.withConfig config <$> b.finish := by
  obtain ⟨_ | ⟨top, _ | ⟨second, rest⟩⟩, old⟩ := b <;> rfl

end Builder

end Pattern

namespace Nfa

variable {nfa : Nfa} {config config' : Config}

theorem ofPattern_withConfig (pattern : String) :
    ofPattern config' pattern = withConfig config' <$> ofPattern config pattern := by
  have hrun : Pattern.Machine.runPattern Pattern.Builder.exec { config := config' } pattern =
      Prod.map (Pattern.Builder.withConfig config') id
        (Pattern.Machine.runPattern Pattern.Builder.exec { config } pattern) :=
    Pattern.Machine.runPattern_map Pattern.Builder.exec_withConfig { config } pattern
  rw [ofPattern, ofPattern, hrun]
  rcases Pattern.Machine.runPattern Pattern.Builder.exec { config } pattern with ⟨b, _ | error⟩
  · exact Pattern.Builder.finish_withConfig b
  · rfl

theorem ofOverflow_withConfig (result : Except GroupOverflow Nfa) :
    Error.ofOverflow (withConfig config <$> result) =
      withConfig config <$> Error.ofOverflow result := by
  rcases result with ⟨⟨⟩⟩ | nfa
  · rfl
  · rfl

theorem orPattern_withConfig (pattern : String) (action : ActionId) :
    (nfa.withConfig config).orPattern pattern action =
      withConfig config <$> nfa.orPattern pattern action := by
  have hpattern : ofPattern (nfa.withConfig config).config pattern =
      withConfig config <$> ofPattern nfa.config pattern := ofPattern_withConfig pattern
  simp only [orPattern, hpattern, bind_map_left, map_bind, addAction_withConfig, or_withConfig,
    ofOverflow_withConfig]

theorem seqPattern_withConfig (pattern : String) :
    (nfa.withConfig config).seqPattern pattern = withConfig config <$> nfa.seqPattern pattern := by
  have hpattern : ofPattern (nfa.withConfig config).config pattern =
      withConfig config <$> ofPattern nfa.config pattern := ofPattern_withConfig pattern
  simp only [seqPattern, hpattern, bind_map_left, map_bind, seq_withConfig, ofOverflow_withConfig]

end Nfa

end LongestMatch
