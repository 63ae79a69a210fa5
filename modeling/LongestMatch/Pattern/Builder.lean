import LongestMatch.Nfa.Language
import LongestMatch.Pattern.Run

/-!
# Building automata from patterns

The machine that builds automata: its operands are automata, its operators those of the algebra. An
instruction that finds too few operands is refused. Operands that have been taken off the stack when
an instruction is refused are gone.
-/

namespace LongestMatch

namespace Pattern

/-- A stack of automata, the top first, and the settings for new ones. -/
structure Builder where
  stack : List Nfa := []
  config : Config := {}

namespace Builder

/-- There are fewer operands than the instruction needs. -/
def underflow : Error :=
  .misuse "builder stack underflow"

/-- Pushes the result of an operator whose operands have been taken off, leaving `rest`. -/
def pushResult (b : Builder) (rest : List Nfa) : Except GroupOverflow Nfa → Builder × Option Error
  | .ok nfa => ({ b with stack := nfa :: rest }, none)
  | .error .tooManyGroups => ({ b with stack := rest }, some .tooManyGroups)

/-- Replaces the top. -/
def unary (b : Builder) (op : Nfa → Except GroupOverflow Nfa) : Builder × Option Error :=
  match b.stack with
  | [] => (b, some underflow)
  | top :: rest => b.pushResult rest (op top)

/-- Replaces the two automata on top. -/
def binary (b : Builder) (op : Nfa → Nfa → Except GroupOverflow Nfa) : Builder × Option Error :=
  match b.stack with
  | right :: left :: rest => b.pushResult rest (op left right)
  | _ => ({ b with stack := [] }, some underflow)

/-- Pushes an automaton. -/
def push (b : Builder) (nfa : Nfa) : Builder × Option Error :=
  ({ b with stack := nfa :: b.stack }, none)

/-- Exchanges the two automata on top. -/
def swap (b : Builder) : Builder × Option Error :=
  match b.stack with
  | top :: second :: rest => ({ b with stack := second :: top :: rest }, none)
  | _ => (b, some underflow)

/-- Pushes a copy of the top. -/
def dup (b : Builder) : Builder × Option Error :=
  match b.stack with
  | top :: _ => b.push top.copy
  | [] => (b, some underflow)

end Builder

/-- The operator on automata that a sign stands for. -/
def Unary.apply : Unary → Nfa → Except GroupOverflow Nfa
  | star, nfa => .ok nfa.star
  | plus, nfa => .ok nfa.plus
  | optional, nfa => .ok nfa.optional
  | withoutMatch, nfa => nfa.withoutMatch
  | invert, nfa => .ok nfa.invert
  | shortest, nfa => .ok nfa.shortest
  | allPrefixes, nfa => .ok nfa.allPrefixes

namespace Builder

/-- What an instruction does. -/
def exec : Machine Builder
  | b, .set ranges inverted => b.push (Nfa.charSet b.config ranges inverted)
  | b, .any => b.push (Nfa.anyChar b.config)
  | b, .text s => b.push (Nfa.literal b.config s)
  | b, .swap => b.swap
  | b, .dup => b.dup
  | b, .or => b.binary Nfa.or
  | b, .seq => b.binary Nfa.seq
  | b, .unary op => b.unary op.apply
  | b, .group => b.unary Nfa.markGroup

/-- The automaton that is left at the end, if it is the only one. -/
def finish (b : Builder) : Except Error Nfa :=
  match b.stack with
  | [nfa] => .ok nfa
  | _ => .error (.misuse "builder stack must hold exactly one automaton")

end Builder

end Pattern

namespace Nfa

/-- The automaton of a pattern. -/
def ofPattern (config : Config) (pattern : String) : Except Error Nfa :=
  match Pattern.Machine.runPattern Pattern.Builder.exec { config } pattern with
  | (_, some error) => .error error
  | (b, none) => b.finish

/-- The automaton of a pattern that has an action. -/
def withAction (pattern : String) (action : ActionId) : Except Error Nfa := do
  return (← ofPattern {} pattern).addAction action

/-- Adds a pattern with its own action as an alternative. -/
def orPattern (nfa : Nfa) (pattern : String) (action : ActionId) : Except Error Nfa := do
  let other ← ofPattern nfa.config pattern
  Error.ofOverflow (nfa.or (other.addAction action))

/-- Lets a pattern follow. -/
def seqPattern (nfa : Nfa) (pattern : String) : Except Error Nfa := do
  let other ← ofPattern nfa.config pattern
  Error.ofOverflow (nfa.seq other)

end Nfa

end LongestMatch
