import LongestMatch.Dfa.Compile
import LongestMatch.Pattern.Builder

/-!
# Progress reports

What there is to report while automata are built and compiled. Nothing is reported by the operations
themselves; an event is a fact about a subset construction or about the result of an operator, and
the functions here list the events of an operation in the order of its work.
-/

namespace LongestMatch

/-- The importance of an event. -/
inductive Event.Level where
  | debug
  | trace
deriving DecidableEq

/-- Something worth reporting. -/
inductive Event where
  /-- A compiled state, with how many states it stands for and how many transitions it has. -/
  | state (id members transitions : Nat)
  /-- No state accepts, so that the automaton is replaced by the one that matches nothing. -/
  | noAccepting (states : Nat)
  /-- The automaton is compiled; the forms of its tables are counted. -/
  | compiled (source states : Nat) (tables : List (Table.Form × Nat))
  | inverted (states : Nat)
  | shortest (states : Nat)
  | prefixes (states : Nat)

namespace Event

/-- The importance of an event. -/
def level : Event → Level
  | noAccepting _ => .debug
  | compiled .. => .debug
  | _ => .trace

/-- An event in words. -/
def text : Event → String
  | state id members transitions =>
    "dfa state " ++ toString id ++ " from " ++ toString members ++ " nfa states, " ++
      toString transitions ++ " transitions"
  | noAccepting states =>
    "no accepting state among " ++ toString states ++ " dfa states, using the empty automaton"
  | compiled source states tables =>
    "compiled " ++ toString source ++ " nfa states into " ++ toString states ++
      " dfa states, tables \x7b" ++
      ", ".intercalate (tables.map fun t => "\"" ++ t.1.name ++ "\": " ++ toString t.2) ++ "\x7d"
  | inverted states => "inverted automaton has " ++ toString states ++ " states"
  | shortest states => "shortest-match automaton has " ++ toString states ++ " states"
  | prefixes states => "prefix automaton has " ++ toString states ++ " states"

end Event

namespace Trace

/-- The forms of tables in the order of their names. -/
def formsByName : List Table.Form :=
  [.dense, .empty, .range, .single, .sparse]

/-- How often each form occurs, without those that do not. -/
def countForms (forms : List Table.Form) : List (Table.Form × Nat) :=
  (formsByName.map fun f => (f, forms.count f)).filter fun entry => entry.2 != 0

/-- The events of the states of a subset construction. -/
def states (found : Numbering (List Nat) CharRange) : List Event :=
  (Array.zipWith
    (fun (set : List Nat) edges => (set.length, (Nfa.transitionsOf edges).length))
    found.nodes found.edges).toList.zipIdx.map
      fun entry => .state entry.2 entry.1.1 entry.1.2

/-- The event at the end of a subset construction in which some state accepts, or none. -/
def outcome (nfa : Nfa) (found : Numbering (List Nat) CharRange) (accepting : Bool) : Event :=
  if accepting then
    .compiled nfa.states.size found.nodes.size
      (countForms (found.edges.toList.map fun edges => (nfa.tableOf edges).form))
  else .noAccepting found.nodes.size

/-- The events of compiling an automaton. There is no event at the end if actions clash. -/
def compile (nfa : Nfa) (catalog : Catalog) : List Event :=
  let found := nfa.exploreSubsets none
  match nfa.compiledStates catalog with
  | .error _ => states found
  | .ok compiled => states found ++ [outcome nfa found (compiled.any fun s => s.action.isSome)]

/-- The events of building the recognizer of an automaton. -/
def recognize (nfa : Nfa) : List Event :=
  let found := nfa.exploreSubsets (some nfa.last)
  states found ++ [outcome nfa found (found.nodes.any (Recognizer.acceptsSet nfa))]

/-! ## Operators on languages -/

/-- The events of a complement. -/
def invert (nfa : Nfa) : List Event :=
  recognize nfa ++ [.inverted (Recognizer.ofNfa nfa).complete.size]

/-- The events of a shortest match. -/
def shortest (nfa : Nfa) : List Event :=
  recognize nfa ++ [.shortest (Recognizer.ofNfa nfa).size]

/-- The events of a set of prefixes. -/
def allPrefixes (nfa : Nfa) : List Event :=
  recognize nfa ++ [.prefixes (Recognizer.ofNfa nfa).size]

/-- The events of a complement, if there is an automaton to take it of. -/
def invertResult : Except GroupOverflow Nfa → List Event
  | .ok nfa => invert nfa
  | .error _ => []

/-- The events of excluding all strings with a match. -/
def withoutMatch (nfa : Nfa) : List Event :=
  invertResult nfa.anywhere

/-- The events of arming a fallback. -/
def completeToSkip (nfa : Nfa) : List Event :=
  allPrefixes nfa.copy ++ invert nfa.copy.allPrefixes ++ invertResult nfa.settled

/-! ## Patterns -/

/-- The events of an operator of a pattern. -/
def unary (op : Pattern.Unary) (nfa : Nfa) : List Event :=
  match op with
  | .withoutMatch => withoutMatch nfa
  | .invert => invert nfa
  | .shortest => shortest nfa
  | .allPrefixes => allPrefixes nfa
  | _ => []

/-- The events of an instruction. -/
def instr (b : Pattern.Builder) : Pattern.Instr → List Event
  | .unary op =>
    match b.stack with
    | top :: _ => unary op top
    | [] => []
  | _ => []

/-- Builds automata and lists the events. -/
def exec : Pattern.Machine (Pattern.Builder × List Event) :=
  fun (b, events) i =>
    let (after, refusal) := b.exec i
    ((after, events ++ instr b i), refusal)

/-- The events of building the automaton of a pattern. -/
def ofPattern (config : Config) (pattern : String) : List Event :=
  (Pattern.Machine.runPattern exec ({ config }, []) pattern).1.2

end Trace

end LongestMatch
