import LongestMatch.Action.Basic
import LongestMatch.Group.Span
import LongestMatch.Text.Escape

/-!
# Stock actions

What is done with a match: leave it in the output, take it out, put a text in its place or around
it, or just give it a name. An action of one's own is a `CustomAction`. A match is the part of the
output from a byte offset to the end.
-/

namespace LongestMatch

/-- An action described by its functions. -/
structure CustomAction where
  /-- Its name in reports. -/
  title : String
  priority : Int := 0
  /-- Its verdict about an action of the given priority. -/
  verdict : Int → Verdict := Verdict.byPriority priority
  /-- The actions it stands for. -/
  parts : List ActionId := []
  /-- The output after it was applied to the match from an offset on, with the spans of the match if
  they are known; or the reason why it failed. -/
  apply : String → Nat → Option (List Span) → Except String String

/-- What to do with a match. -/
inductive Action where
  /-- Leaves the match in the output. -/
  | copy
  /-- Takes the match out. -/
  | drop
  /-- Puts a text in the place of the match. -/
  | replace (text : String) (priority : Int)
  /-- Puts a text before and one after the match. -/
  | embed (before after : String) (priority : Int)
  /-- Names the match and leaves it in the output. -/
  | tag (name : String) (priority : Int)
  | custom (action : CustomAction)

namespace Action

/-- Why an action could not be applied. -/
inductive Fault where
  /-- The offset is outside the output or inside a character. -/
  | badOffset
  /-- The action gave up for a reason of its own. -/
  | failed (reason : String)

/-- The priority, which is 0 where none can be given. -/
def priority : Action → Int
  | copy => 0
  | drop => 0
  | replace _ p => p
  | embed _ _ p => p
  | tag _ p => p
  | custom a => a.priority

/-- The verdict about another action of the given priority. -/
def verdict (a : Action) (other : Int) : Verdict :=
  match a with
  | custom c => c.verdict other
  | a => Verdict.byPriority a.priority other

/-- The actions that the action stands for. -/
def parts : Action → List ActionId
  | custom a => a.parts
  | _ => []

/-- The name of a tag. -/
def name? : Action → Option String
  | tag name _ => some name
  | _ => none

/-- A name with its fields, as written in reports. -/
def record (title : String) (fields : List (String × String)) : String :=
  title ++ " \x7b " ++ ", ".intercalate (fields.map fun f => f.1 ++ ": " ++ f.2) ++ " \x7d"

/-- The name of the action in reports. -/
def describe : Action → String
  | copy => "CopyMatch"
  | drop => "DropMatch"
  | replace text p => record "Replace" [("text", Escape.quoted text), ("priority", toString p)]
  | embed before after p =>
    record "Embed" [("pre", Escape.quoted before), ("post", Escape.quoted after),
      ("priority", toString p)]
  | tag name p => record "Tag" [("name", Escape.quoted name), ("priority", toString p)]
  | custom a => a.title

/-- The output without what follows a byte offset. An offset past the end leaves it as it is. -/
def cutOff (out : String) (start : Nat) : Except Fault String :=
  if out.utf8ByteSize < start then .ok out
  else
    match Offset.cut? out start with
    | some (kept, _) => .ok kept
    | none => .error .badOffset

/-- Applies the action to the match in `out` from the byte offset `start` on. -/
def apply (a : Action) (out : String) (start : Nat) (spans : Option (List Span)) :
    Except Fault String :=
  match a with
  | copy => .ok out
  | drop => cutOff out start
  | replace text _ => (cutOff out start).map (· ++ text)
  | embed before after _ =>
    match Offset.cut? out start with
    | some (kept, matched) => .ok (kept ++ before ++ matched ++ after)
    | none => .error .badOffset
  | tag .. => .ok out
  | custom c =>
    match c.apply out start spans with
    | .ok out => .ok out
    | .error reason => .error (.failed reason)

end Action

/-- What an automaton needs to know about actions that are numbered by their positions. -/
def Catalog.ofActions (actions : Array Action) : Catalog where
  priority id := (actions[id]?.map Action.priority).getD 0
  merge id other :=
    let otherPriority := (actions[other]?.map Action.priority).getD 0
    (actions[id]?.map fun a => a.verdict otherPriority).getD (Verdict.byPriority 0 otherPriority)
  parts id := (actions[id]?.map Action.parts).getD []
  describe id := (actions[id]?.map Action.describe).getD ""

end LongestMatch
