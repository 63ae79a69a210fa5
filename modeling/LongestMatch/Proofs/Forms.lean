import LongestMatch.Proofs.Analysis
import LongestMatch.Proofs.Settings

/-!
# Only the forms of tables depend on settings

A `Construction` is a program of the constructors and operators that are open to everyone, in which
settings stand under names. Two runs of it that differ in what the names stand for end with the same
error, or with the same graph (`Construction.run_eq`). The automata compiled from that graph differ
in the forms of their tables only: each table is what the settings make of the same transitions
(`Nfa.compile_withConfig`), and a table is as good as the transitions that it gives back
(`Table.Faithful`). `Construction.same_results` puts this together. Of `Config.prefersDense`, which
chooses the form, nothing is assumed.
-/

namespace LongestMatch

/-! ## Tables -/

namespace Table

/-- The table gives back a list without two entries that could be one, and looks up what it says. -/
structure Faithful (table : Table) : Prop where
  joined : Transition.Joined table.transitions
  get_iff : ∀ c q, table.get c = some q ↔ Transition.Leads table.transitions c q

variable {table : Table} {ts : List Transition} {config : Config}

theorem faithful_build (config : Config) (h : Transition.Joined ts) :
    (build config ts).Faithful := by
  refine ⟨(transitions_build config h).symm ▸ h, fun c q => ?_⟩
  rw [transitions_build config h, get_build config h.sorted]

theorem faithful_empty : empty.Faithful :=
  faithful_build {} ⟨Transition.sorted_nil, List.isChain_nil⟩

/-- The table with the same transitions in the form that the settings ask for. -/
def reform (config : Config) (table : Table) : Table :=
  build config table.transitions

theorem Faithful.transitions_reform (h : table.Faithful) :
    (table.reform config).transitions = table.transitions :=
  transitions_build config h.joined

theorem Faithful.get_reform (h : table.Faithful) (c : Char) :
    (table.reform config).get c = table.get c := by
  apply Option.ext
  intro q
  rw [reform, get_build config h.joined.sorted, h.get_iff]

end Table

/-! ## Compiled automata -/

/-- The state with its table in the form that the settings ask for. -/
def DfaState.reform (config : Config) (s : DfaState) : DfaState :=
  { s with table := s.table.reform config }

namespace Dfa

/-- Matching asks a state where characters lead, what its action is and which markers it has. -/
structure Interchangeable (dfa other : Dfa) : Prop where
  get_eq : ∀ i c, (dfa.state i).table.get c = (other.state i).table.get c
  action_eq : ∀ i, (dfa.state i).action = (other.state i).action
  marks_eq : ∀ i, (dfa.state i).marks = (other.state i).marks
  catalog_eq : dfa.catalog = other.catalog

variable {dfa other : Dfa} {config : Config}

/-! ### One step of reading -/

section Scan

variable {limit : Option Nat} {src src' : Source} {c : Char} {state : Nat} {s : Scan}

theorem scan_of_failed_read (hlimit : ¬limit = some 0) {reason : String}
    (hread : src.read = (.failed reason, src')) :
    dfa.scan state s limit src = (.failed reason, s, src') := by
  rw [scan, if_neg hlimit]
  split
  · next h =>
    cases hread.symm.trans h
    rfl
  · next h => cases hread.symm.trans h
  · next h => cases hread.symm.trans h

theorem scan_of_done (hlimit : ¬limit = some 0) (hread : src.read = (.done, src')) :
    dfa.scan state s limit src = (.exhausted, s, src') := by
  rw [scan, if_neg hlimit]
  split
  · next h => cases hread.symm.trans h
  · next h =>
    cases hread.symm.trans h
    rfl
  · next h => cases hread.symm.trans h

section Char

variable (hlimit : ¬limit = some 0) (hread : src.read = (.char c, src'))

include hlimit hread

theorem scan_of_get_none (hget : (dfa.state state).table.get c = none) :
    dfa.scan state s limit src = (.stuck, { s with read := c :: s.read }, src') := by
  rw [scan, if_neg hlimit]
  split
  · next h => cases hread.symm.trans h
  · next h => cases hread.symm.trans h
  · next h =>
    cases hread.symm.trans h
    simp only [hget]

theorem scan_of_get_some {next : Nat} (hget : (dfa.state state).table.get c = some next) :
    dfa.scan state s limit src =
      dfa.scan next (s.advance dfa c next) (limit.map (· - 1)) src' := by
  rw [scan, if_neg hlimit]
  split
  · next h => cases hread.symm.trans h
  · next h => cases hread.symm.trans h
  · next h =>
    cases hread.symm.trans h
    simp only [hget]

end Char

end Scan

section Interchangeable

variable (h : dfa.Interchangeable other)

include h

theorem Interchangeable.advance_eq (s : Scan) (c : Char) (next : Nat) :
    s.advance dfa c next = s.advance other c next := by
  rw [Scan.advance, Scan.advance, h.action_eq]

theorem Interchangeable.scan_eq (state : Nat) (s : Scan) (limit : Option Nat) (src : Source) :
    dfa.scan state s limit src = other.scan state s limit src := by
  fun_induction dfa.scan state s limit src with
  | case1 state s src =>
    unfold scan
    rw [if_pos rfl]
  | case2 state s limit src hlimit reason src' hread => rw [scan_of_failed_read hlimit hread]
  | case3 state s limit src hlimit src' hread => rw [scan_of_done hlimit hread]
  | case4 state s limit src hlimit c src' hread hget =>
    rw [h.get_eq] at hget
    rw [scan_of_get_none hlimit hread hget]
  | case5 state s limit src hlimit c src' hread next hget _ ih =>
    rw [h.get_eq] at hget
    rw [ih, h.advance_eq, scan_of_get_some hlimit hread hget]

theorem Interchangeable.markersFor_eq (i : Nat) (a : ActionId) :
    dfa.markersFor i a = other.markersFor i a := by
  rw [markersFor, markersFor, h.marks_eq, h.catalog_eq]

theorem Interchangeable.hasGroups_eq : dfa.hasGroups = other.hasGroups := by
  rw [Bool.eq_iff_iff, hasGroups_iff, hasGroups_iff]
  simp only [h.marks_eq]

/-- A match is the same in every respect. -/
theorem Interchangeable.matchLimited_eq (limit : Option Nat) (src : Source) (out : String) :
    dfa.matchLimited limit src out = other.matchLimited limit src out := by
  have hstart : dfa.scanStart = other.scanStart := by rw [scanStart, scanStart, h.action_eq]
  have hspans : dfa.spansOf = other.spansOf := by
    funext action start read states length
    simp only [spansOf, analyze, markersMet, h.hasGroups_eq, h.marks_eq, h.markersFor_eq]
  unfold matchLimited
  rw [h.scan_eq, hstart, hspans]

end Interchangeable

/-- The automaton with its tables in the forms that other settings ask for. -/
def withConfig (config : Config) (dfa : Dfa) : Dfa :=
  { dfa with states := dfa.states.map (DfaState.reform config) }

theorem state_withConfig (i : Nat) : (dfa.withConfig config).state i = (dfa.state i).reform config := by
  rw [state, state, withConfig, Array.getD_eq_getD_getElem?, Array.getD_eq_getD_getElem?,
    Array.getElem?_map]
  cases dfa.states[i]? with
  | none => rfl
  | some s => rfl

theorem stateCount_withConfig : (dfa.withConfig config).stateCount = dfa.stateCount :=
  Array.size_map

theorem interchangeable_withConfig (h : ∀ i, (dfa.state i).table.Faithful) :
    dfa.Interchangeable (dfa.withConfig config) where
  get_eq i c := by rw [state_withConfig, DfaState.reform, (h i).get_reform]
  action_eq i := by rw [state_withConfig, DfaState.reform]
  marks_eq i := by rw [state_withConfig, DfaState.reform]
  catalog_eq := rfl

end Dfa

/-! ## Compiling -/

namespace Nfa

variable {nfa : Nfa} {config : Config} {catalog : Catalog} {failPolicy : FailPolicy}
  {eofAction : Option ActionId} {dfa : Dfa} {row : List (CharRange × Nat)} {i : Nat}

theorem joined_row (h : (nfa.exploreSubsets none).edges[i]? = some row) :
    Transition.Joined (transitionsOf row) ∧ nfa.rowOf row = transitionsOf row := by
  obtain ⟨set, -, hrow⟩ := (sound_exploreSubsets nfa none).1.row i row h
  exact ⟨Transition.joined_join (sorted_row hrow), rowOf_eq hrow⟩

theorem reform_tableOf (h : (nfa.exploreSubsets none).edges[i]? = some row) :
    (nfa.tableOf row).reform config = (nfa.withConfig config).tableOf row :=
  congrArg (Table.build config) (joined_row h).2

theorem subsetStates_withConfig (catalog : Catalog) :
    (nfa.withConfig config).subsetStates catalog =
      (nfa.subsetStates catalog).map (DfaState.reform config) := by
  apply Array.ext_getElem?
  intro i
  rw [Array.getElem?_map, getElem?_subsetStates, getElem?_subsetStates, exploreSubsets_withConfig]
  cases (nfa.exploreSubsets none).nodes[i]? with
  | none => rfl
  | some set =>
    cases hrow : (nfa.exploreSubsets none).edges[i]? with
    | none => rfl
    | some row =>
      show some ((nfa.withConfig config).compiledState catalog set row) =
        some ((nfa.compiledState catalog set row).reform config)
      rw [DfaState.reform, compiledState, compiledState, reform_tableOf hrow]
      rfl

theorem compiledStates_withConfig (catalog : Catalog) :
    (nfa.withConfig config).compiledStates catalog =
      Array.map (DfaState.reform config) <$> nfa.compiledStates catalog := by
  have hreport : ((nfa.withConfig config).exploreSubsets none).edges.map
      (nfa.withConfig config).rowOf = (nfa.exploreSubsets none).edges.map nfa.rowOf := by
    rw [map_rowOf, map_rowOf, graph_withConfig]
  have hstates : (nfa.withConfig config).subsetStates catalog =
      (nfa.subsetStates catalog).map (DfaState.reform config) := subsetStates_withConfig catalog
  have hset : Resolution.ofSet catalog (nfa.withConfig config) = Resolution.ofSet catalog nfa := rfl
  unfold subsetStates at hstates
  rw [exploreSubsets_withConfig] at hreport hstates
  unfold compiledStates
  simp only [exploreSubsets_withConfig, hset, hreport, hstates]
  split
  · split
    · have hempty : (Array.singleton ({} : DfaState)).map (DfaState.reform config) =
          Array.singleton {} := Array.map_singleton
      exact congrArg Except.ok hempty.symm
    · rfl
  · rfl

/-- With other settings compiling fails in the same way, or the tables have other forms. -/
theorem compile_withConfig (catalog : Catalog) (failPolicy : FailPolicy)
    (eofAction : Option ActionId) :
    (nfa.withConfig config).compile catalog failPolicy eofAction =
      Dfa.withConfig config <$> nfa.compile catalog failPolicy eofAction := by
  rw [compile_eq, compile_eq, compiledStates_withConfig]
  cases nfa.compiledStates catalog with
  | error clashes => rfl
  | ok states => rfl

/-- All tables that compiling makes are faithful. -/
theorem faithful_compile (h : nfa.compile catalog failPolicy eofAction = .ok dfa) (i : Nat) :
    (dfa.state i).table.Faithful := by
  rcases state_compile h i with ⟨set, row, hrow, heq⟩ | heq
  · rw [heq]
    exact Table.faithful_build nfa.config (joined_row hrow).1
  · rw [heq]
    exact Table.faithful_empty

end Nfa

/-! ## Programs -/

/-- A program of the constructors and operators that are open to everyone. Settings stand under names
from `κ`; an operator hands on those of its first operand. -/
inductive Construction (κ : Type) where
  | empty (name : κ)
  | literal (name : κ) (s : String)
  | charSet (name : κ) (ranges : List CharRange) (inverted : Bool)
  | anyChar (name : κ)
  | ofPattern (name : κ) (pattern : String)
  | copy (c : Construction κ)
  | seq (c d : Construction κ)
  | or (c d : Construction κ)
  | star (c : Construction κ)
  | plus (c : Construction κ)
  | optional (c : Construction κ)
  | withoutMatch (c : Construction κ)
  | invert (c : Construction κ)
  | shortest (c : Construction κ)
  | allPrefixes (c : Construction κ)
  | completeToSkip (c : Construction κ) (fallback : ActionId)
  | markGroup (c : Construction κ)
  | addAction (c : Construction κ) (action : ActionId)
  | orPattern (c : Construction κ) (pattern : String) (action : ActionId)
  | seqPattern (c : Construction κ) (pattern : String)

namespace Construction

variable {κ : Type}

/-- Runs the program with the settings that the names stand for. -/
def run (f : κ → Config) : Construction κ → Except Error Nfa
  | empty name => .ok (.empty (f name))
  | literal name s => .ok (.literal (f name) s)
  | charSet name ranges inverted => .ok (.charSet (f name) ranges inverted)
  | anyChar name => .ok (.anyChar (f name))
  | ofPattern name pattern => Nfa.ofPattern (f name) pattern
  | copy c => do return (← c.run f).copy
  | seq c d => do Error.ofOverflow ((← c.run f).seq (← d.run f))
  | or c d => do Error.ofOverflow ((← c.run f).or (← d.run f))
  | star c => do return (← c.run f).star
  | plus c => do return (← c.run f).plus
  | optional c => do return (← c.run f).optional
  | withoutMatch c => do Error.ofOverflow (← c.run f).withoutMatch
  | invert c => do return (← c.run f).invert
  | shortest c => do return (← c.run f).shortest
  | allPrefixes c => do return (← c.run f).allPrefixes
  | completeToSkip c fallback => do Error.ofOverflow ((← c.run f).completeToSkip fallback)
  | markGroup c => do Error.ofOverflow (← c.run f).markGroup
  | addAction c action => do return (← c.run f).addAction action
  | orPattern c pattern action => do (← c.run f).orPattern pattern action
  | seqPattern c pattern => do (← c.run f).seqPattern pattern

/-- The name of the settings that the result has. -/
def name : Construction κ → κ
  | empty name | literal name _ | charSet name _ _ | anyChar name | ofPattern name _ => name
  | copy c | seq c _ | or c _ | star c | plus c | optional c | withoutMatch c | invert c
  | shortest c | allPrefixes c | completeToSkip c _ | markGroup c | addAction c _
  | orPattern c _ _ | seqPattern c _ => c.name

/-- Two runs end with the same error or with the same automaton, but for its settings. -/
theorem run_eq (f g : κ → Config) (c : Construction κ) :
    c.run g = Nfa.withConfig (g c.name) <$> c.run f := by
  induction c with
  | empty name => rfl
  | literal name s => exact congrArg Except.ok (Nfa.literal_withConfig s).symm
  | charSet name ranges inverted => rfl
  | anyChar name => rfl
  | ofPattern name pattern => exact Nfa.ofPattern_withConfig pattern
  | copy c ih =>
    simp only [run, name, ih, bind_map_left, map_bind, map_pure]
    rfl
  | seq c d ihc ihd =>
    simp only [run, name, ihc, ihd, bind_map_left, map_bind, Nfa.seq_withConfig,
      Nfa.ofOverflow_withConfig]
  | or c d ihc ihd =>
    simp only [run, name, ihc, ihd, bind_map_left, map_bind, Nfa.or_withConfig,
      Nfa.ofOverflow_withConfig]
  | star c ih =>
    simp only [run, name, ih, bind_map_left, map_bind, map_pure]
    rfl
  | plus c ih =>
    simp only [run, name, ih, bind_map_left, map_bind, map_pure]
    rfl
  | optional c ih =>
    simp only [run, name, ih, bind_map_left, map_bind, map_pure]
    rfl
  | withoutMatch c ih =>
    simp only [run, name, ih, bind_map_left, map_bind, Nfa.withoutMatch_withConfig,
      Nfa.ofOverflow_withConfig]
  | invert c ih =>
    simp only [run, name, ih, bind_map_left, map_bind, map_pure, Nfa.invert_withConfig]
  | shortest c ih =>
    simp only [run, name, ih, bind_map_left, map_bind, map_pure, Nfa.shortest_withConfig]
  | allPrefixes c ih =>
    simp only [run, name, ih, bind_map_left, map_bind, map_pure, Nfa.allPrefixes_withConfig]
  | completeToSkip c fallback ih =>
    simp only [run, name, ih, bind_map_left, map_bind, Nfa.completeToSkip_withConfig,
      Nfa.ofOverflow_withConfig]
  | markGroup c ih =>
    simp only [run, name, ih, bind_map_left, map_bind, Nfa.markGroup_withConfig,
      Nfa.ofOverflow_withConfig]
  | addAction c action ih =>
    simp only [run, name, ih, bind_map_left, map_bind, map_pure, Nfa.addAction_withConfig]
  | orPattern c pattern action ih =>
    simp only [run, name, ih, bind_map_left, map_bind, Nfa.orPattern_withConfig]
  | seqPattern c pattern ih =>
    simp only [run, name, ih, bind_map_left, map_bind, Nfa.seqPattern_withConfig]

/-- A program is run twice, with whatever settings. Both runs end with the same error, or with
automata that have the same states and the same number of reachable ones. These compile with the
same clashes, or to automata that have the same number of states, with the same transitions, actions
and markers, and of which every match is the same, with what it adds to the output and with its
spans. -/
theorem same_results (f g : κ → Config) (c : Construction κ) :
    (∃ error, c.run f = .error error ∧ c.run g = .error error) ∨
    ∃ N M, c.run f = .ok N ∧ c.run g = .ok M ∧
      N.states = M.states ∧ N.start = M.start ∧ N.last = M.last ∧ N.nextGroup = M.nextGroup ∧
      N.stateCount = M.stateCount ∧
      ∀ catalog failPolicy eofAction,
        (∃ clashes, N.compile catalog failPolicy eofAction = .error clashes ∧
          M.compile catalog failPolicy eofAction = .error clashes) ∨
        ∃ d e, N.compile catalog failPolicy eofAction = .ok d ∧
          M.compile catalog failPolicy eofAction = .ok e ∧
          d.stateCount = e.stateCount ∧
          (∀ i, (d.state i).table.transitions = (e.state i).table.transitions ∧
            (d.state i).action = (e.state i).action ∧ (d.state i).marks = (e.state i).marks) ∧
          ∀ limit src out, d.matchLimited limit src out = e.matchLimited limit src out ∧
            (d.matchLimited limit src out).extend out =
              (e.matchLimited limit src out).extend out := by
  have hrun := run_eq f g c
  cases hN : c.run f with
  | error error =>
    rw [hN] at hrun
    exact .inl ⟨error, rfl, hrun⟩
  | ok N =>
    rw [hN] at hrun
    refine .inr ⟨N, _, rfl, hrun, rfl, rfl, rfl, rfl, rfl, fun catalog failPolicy eofAction => ?_⟩
    rw [Nfa.compile_withConfig]
    cases hd : N.compile catalog failPolicy eofAction with
    | error clashes => exact .inl ⟨clashes, rfl, rfl⟩
    | ok d =>
      have hfaithful := Nfa.faithful_compile hd
      have hinterchangeable : d.Interchangeable (d.withConfig (g c.name)) :=
        Dfa.interchangeable_withConfig hfaithful
      have hmatch := hinterchangeable.matchLimited_eq
      refine .inr ⟨d, _, rfl, rfl, Dfa.stateCount_withConfig.symm, fun i => ?_,
        fun limit src out => ⟨hmatch limit src out, by rw [hmatch]⟩⟩
      rw [Dfa.state_withConfig]
      exact ⟨(hfaithful i).transitions_reform.symm, rfl, rfl⟩

end Construction

end LongestMatch
