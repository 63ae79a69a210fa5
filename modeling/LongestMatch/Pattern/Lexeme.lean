import LongestMatch.Pattern.Glyph
import LongestMatch.Pattern.Instr

/-!
# Lexemes of a pattern

The glyphs of a pattern are grouped to lexemes: operands, brackets of groups, bars, and the signs
that follow an operand. A class in brackets and the bounds of a repetition are one lexeme each.
Plain characters in a row are one text, except that the last of them stands alone if a sign follows,
for a sign applies to one character only.

A malformed class, escape or repetition is a lexeme too, which carries its fault and ends the row.
It does not reject the pattern by itself: a fault before it comes first.
-/

namespace LongestMatch

namespace Pattern

/-- What a lexeme is. -/
inductive Lexeme.Kind where
  | operand (instr : Instr)
  /-- An opening bracket; with `report` it opens a reporting group. -/
  | openGroup (report : Bool)
  | closeGroup
  | bar
  | unary (op : Unary)
  /-- At least `min` copies, and at most `max` if there is such a bound. -/
  | bounds (min : Nat) (max : Option Nat)
  /-- A malformed operand. -/
  | badOperand (fault : Fault) (position : Nat)
  /-- Malformed bounds. -/
  | badBounds (fault : Fault) (position : Nat)
deriving DecidableEq

/-- A lexeme with the position where it begins, and the position up to which the pattern has been
read for it. -/
structure Lexeme where
  kind : Lexeme.Kind
  start : Nat
  stop : Nat
deriving DecidableEq

/-- What a part of a pattern means, up to which position it was read, and the glyphs after it; or
its fault with the position. -/
abbrev Reading (α : Type) : Type :=
  Except (Fault × Nat) (α × Nat × List Glyph)

namespace Lexeme

/-! ## Classes -/

/-- An item of a class that begins with the glyph `g`: a character, or a range if a dash follows. -/
def classItem (opened : Nat) (g : Glyph) (rest : List Glyph) :
    Except (Fault × Nat) (CharRange × List Glyph) := do
  let lo ← g.char
  match rest with
  | [] => return (CharRange.single lo, [])
  | dash :: tail =>
    if dash.is '-' then
      match tail with
      | [] => throw (.unexpectedEnd, opened)
      | bound :: after =>
        if bound.is ']' then throw (.badRange, g.start)
        let hi ← bound.char
        if hi < lo then throw (.badRange, g.start)
        return (⟨lo, hi⟩, after)
    else return (CharRange.single lo, dash :: tail)

/-- An item takes glyphs away. -/
theorem length_classItem {opened : Nat} {g : Glyph} {rest : List Glyph}
    {item : CharRange × List Glyph} (h : classItem opened g rest = .ok item) :
    item.2.length ≤ rest.length := by
  unfold classItem at h
  cases hlo : g.char with
  | error e => simp [hlo, bind, Except.bind] at h
  | ok lo =>
    simp only [hlo, bind, Except.bind] at h
    split at h
    · cases h; exact Nat.le_refl _
    · next dash tail =>
      split at h
      · split at h
        · cases h
        · next bound after =>
          split at h
          · cases h
          · cases hhi : bound.char with
            | error e => simp [hhi] at h
            | ok hi =>
              simp only [hhi, pure, Except.pure] at h
              split at h
              · cases h
              · cases h
                simp only [List.length_cons]
                omega
      · cases h; exact Nat.le_refl _

/-- The items of a class up to its closing bracket. A closing bracket or a dash stands for itself at
the front of the first item. -/
def classItems (opened : Nat) (first : Bool) (ranges : List CharRange) (glyphs : List Glyph) :
    Reading (List CharRange) :=
  match glyphs with
  | [] => .error (.unexpectedEnd, opened)
  | g :: rest =>
    if !first && g.is ']' then .ok (ranges, g.stop, rest)
    else if !first && g.is '-' then .error (.badRange, g.start)
    else
      match h : classItem opened g rest with
      | .error fault => .error fault
      | .ok item =>
        have : item.2.length < (g :: rest).length := Nat.lt_succ_of_le (length_classItem h)
        classItems opened false (ranges ++ [item.1]) item.2
termination_by glyphs.length
decreasing_by assumption

/-- A class, whose opening bracket has been read. -/
def classAfter (opened : Nat) (glyphs : List Glyph) : Reading Instr :=
  let inverted := match glyphs with
    | g :: _ => g.is '^'
    | [] => false
  let body := if inverted then glyphs.drop 1 else glyphs
  (classItems opened true [] body).map fun r => (.set r.1 inverted, r.2)

/-! ## Bounds of a repetition -/

/-- The greatest number that can be a bound. -/
def maxBound : Nat := 0xFFFFFFFF

/-- Reads digits that go on after `value`. -/
def digitsAfter (position value : Nat) : List Glyph → Reading Nat
  | [] => .ok (value, position, [])
  | g :: rest =>
    match g.digit? with
    | none => .ok (value, position, g :: rest)
    | some d =>
      let value := value * 10 + d
      if maxBound < value then .error (.badRepeat, g.start) else digitsAfter g.stop value rest

/-- Whether a number follows. -/
def startsNumber : List Glyph → Bool
  | [] => false
  | g :: _ => g.digit?.isSome

/-- Reads a number. -/
def number (position : Nat) (glyphs : List Glyph) : Reading Nat :=
  if startsNumber glyphs then digitsAfter position 0 glyphs else .error (.badRepeat, position)

/-- Reads the upper bound: the lower one where no comma follows, and none where nothing follows the
comma. -/
def upperBound (min position : Nat) : List Glyph → Reading (Option Nat)
  | [] => .ok (some min, position, [])
  | g :: rest =>
    if g.is ',' then
      if startsNumber rest then (number g.stop rest).map fun r => (some r.1, r.2)
      else .ok (none, g.stop, rest)
    else .ok (some min, position, g :: rest)

/-- Whether the bounds allow at least one copy and are in order. -/
def boundsInOrder (min : Nat) : Option Nat → Bool
  | none => true
  | some max => 0 < max && min ≤ max

/-- Bounds, whose opening brace at `opened` has been read up to `position`. -/
def boundsAfter (opened position : Nat) (glyphs : List Glyph) :
    Except (Fault × Nat) ((Nat × Option Nat) × Nat × List Glyph) := do
  let (min, position, glyphs) ← number position glyphs
  let (max, _, glyphs) ← upperBound min position glyphs
  match glyphs with
  | [] => throw (.missingBrace, opened)
  | g :: rest =>
    if !g.is '\x7d' then throw (.missingBrace, opened)
    if !boundsInOrder min max then throw (.badRepeat, opened)
    return ((min, max), g.stop, rest)

/-! ## Texts -/

/-- Whether a character is a sign that follows an operand. -/
def isSign (c : Char) : Bool :=
  c == '\x7b' || (Unary.ofSign? c).isSome

/-- Whether a character has a meaning of its own outside classes. -/
def isSpecial (c : Char) : Bool :=
  isSign c || c == '|' || c == '(' || c == ')' || c == '[' || c == '.' || c == '\\'

/-- The character of a glyph that stands for itself. -/
def literal? (g : Glyph) : Option Char :=
  match g.kind with
  | .plain c => if isSpecial c then none else some c
  | _ => none

/-- Whether a sign comes next. -/
def signFollows : List Glyph → Bool
  | [] => false
  | g :: _ =>
    match g.kind with
    | .plain c => isSign c
    | _ => false

/-- The glyphs at the front that stand for themselves, with their characters. -/
def literals : List Glyph → List (Glyph × Char)
  | [] => []
  | g :: rest =>
    match literal? g with
    | none => []
    | some c => (g, c) :: literals rest

/-- A text as an operand. -/
def textOperand (chars : List Char) : Kind :=
  .operand (.text (String.ofList chars))

/-- The text that begins with the character `c` of the glyph `g`. All characters that stand for
themselves have been read for it, but it leaves the last one if a sign follows. -/
def textAfter (g : Glyph) (c : Char) (rest : List Glyph) : Lexeme × List Glyph :=
  let more := literals rest
  let stop := ((more.map Prod.fst).getLastD g).stop
  let after := rest.drop more.length
  if signFollows after && !more.isEmpty then
    (⟨textOperand (c :: more.dropLast.map Prod.snd), g.start, stop⟩, rest.drop (more.length - 1))
  else (⟨textOperand (c :: more.map Prod.snd), g.start, stop⟩, after)

/-! ## All lexemes -/

/-- A lexeme that was read from its opening sign on, or else one that ends the row. -/
def ofReading {α : Type} (start : Nat) (good : α → Kind) (bad : Fault → Nat → Kind) :
    Except (Fault × Nat) (α × Nat × List Glyph) → Lexeme × List Glyph
  | .ok (a, stop, rest) => (⟨good a, start, stop⟩, rest)
  | .error (fault, position) => (⟨bad fault position, start, start + 1⟩, [])

/-- The lexeme that begins with `c`, the plain character of the glyph `g`, and the glyphs after. -/
def ofPlain (g : Glyph) (c : Char) (rest : List Glyph) : Lexeme × List Glyph :=
  match Unary.ofSign? c with
  | some op => (⟨.unary op, g.start, g.stop⟩, rest)
  | none =>
    match c with
    | '\x7b' =>
      ofReading g.start (fun b => .bounds b.1 b.2) .badBounds (boundsAfter g.start g.stop rest)
    | '[' => ofReading g.start .operand .badOperand (classAfter g.start rest)
    | '(' =>
      match rest with
      | [] => (⟨.openGroup false, g.start, g.stop⟩, [])
      | h :: tail =>
        if h.is '!' then (⟨.openGroup true, g.start, h.stop⟩, tail)
        else (⟨.openGroup false, g.start, g.stop⟩, h :: tail)
    | ')' => (⟨.closeGroup, g.start, g.stop⟩, rest)
    | '|' => (⟨.bar, g.start, g.stop⟩, rest)
    | '.' => (⟨.operand .any, g.start, g.stop⟩, rest)
    | c => textAfter g c rest

/-- The lexeme that begins with the glyph `g`, and the glyphs after it. -/
def next (g : Glyph) (rest : List Glyph) : Lexeme × List Glyph :=
  match g.kind with
  | .plain c => ofPlain g c rest
  | .escaped c => (⟨textOperand [c], g.start, g.stop⟩, rest)
  | .broken fault => (⟨.badOperand fault g.start, g.start, g.stop⟩, [])

/-! ## Every lexeme takes a glyph away -/

theorem length_classItems {opened : Nat} {first : Bool} {ranges : List CharRange}
    {glyphs : List Glyph} {r : List CharRange × Nat × List Glyph}
    (h : classItems opened first ranges glyphs = .ok r) : r.2.2.length ≤ glyphs.length := by
  fun_induction classItems opened first ranges glyphs with
  | case1 => cases h
  | case2 => cases h; simp
  | case3 => cases h
  | case4 => cases h
  | case5 _ _ g rest _ _ item hitem _ ih =>
    have := ih h
    have := length_classItem hitem
    simp only [List.length_cons]
    omega

theorem length_classAfter {opened : Nat} {glyphs : List Glyph} {r : Instr × Nat × List Glyph}
    (h : classAfter opened glyphs = .ok r) : r.2.2.length ≤ glyphs.length := by
  unfold classAfter at h
  generalize (match glyphs with | g :: _ => g.is '^' | [] => false) = inverted at h
  have shorter : (if inverted then glyphs.drop 1 else glyphs).length ≤ glyphs.length := by
    split <;> simp
  simp only [Except.map] at h
  split at h
  · cases h
  · next items hitems =>
    cases h
    exact Nat.le_trans (length_classItems hitems) shorter

theorem length_digitsAfter {position value : Nat} {glyphs : List Glyph}
    {r : Nat × Nat × List Glyph} (h : digitsAfter position value glyphs = .ok r) :
    r.2.2.length ≤ glyphs.length := by
  fun_induction digitsAfter position value glyphs with
  | case1 => cases h; simp
  | case2 => cases h; simp
  | case3 => cases h
  | case4 _ _ _ _ _ _ _ _ ih => exact Nat.le_succ_of_le (ih h)

theorem length_number {position : Nat} {glyphs : List Glyph} {r : Nat × Nat × List Glyph}
    (h : number position glyphs = .ok r) : r.2.2.length ≤ glyphs.length := by
  unfold number at h
  split at h
  · exact length_digitsAfter h
  · cases h

theorem length_upperBound {min position : Nat} {glyphs : List Glyph}
    {r : Option Nat × Nat × List Glyph} (h : upperBound min position glyphs = .ok r) :
    r.2.2.length ≤ glyphs.length := by
  unfold upperBound at h
  split at h
  · cases h; exact Nat.le_refl _
  · next g rest =>
    split at h
    · split at h
      · cases hn : number g.stop rest with
        | error e => simp [hn, Except.map] at h
        | ok n =>
          simp only [hn, Except.map] at h
          cases h
          exact Nat.le_succ_of_le (length_number hn)
      · cases h; simp
    · cases h; exact Nat.le_refl _

theorem length_boundsAfter {opened position : Nat} {glyphs : List Glyph}
    {r : (Nat × Option Nat) × Nat × List Glyph} (h : boundsAfter opened position glyphs = .ok r) :
    r.2.2.length ≤ glyphs.length := by
  unfold boundsAfter at h
  cases hmin : number position glyphs with
  | error e => simp [hmin, bind, Except.bind] at h
  | ok min =>
    obtain ⟨min, afterMin, rest⟩ := min
    cases hmax : upperBound min afterMin rest with
    | error e => simp [hmin, hmax, bind, Except.bind] at h
    | ok max =>
      obtain ⟨max, afterMax, left⟩ := max
      simp only [hmin, hmax, bind, Except.bind] at h
      have : rest.length ≤ glyphs.length := length_number hmin
      have : left.length ≤ rest.length := length_upperBound hmax
      split at h
      · cases h
      · next g after =>
        split at h
        · cases h
        · split at h
          · cases h
          · cases h
            simp only [List.length_cons] at *
            omega

theorem length_ofReading {α : Type} {start : Nat} {good : α → Kind} {bad : Fault → Nat → Kind}
    {reading : Except (Fault × Nat) (α × Nat × List Glyph)} {glyphs : List Glyph}
    (h : ∀ r, reading = .ok r → r.2.2.length ≤ glyphs.length) :
    (ofReading start good bad reading).2.length ≤ glyphs.length := by
  cases reading with
  | error e => simp [ofReading]
  | ok r => exact h r rfl

theorem length_next (g : Glyph) (rest : List Glyph) : (next g rest).2.length ≤ rest.length := by
  unfold next
  split
  · unfold ofPlain
    split
    · exact Nat.le_refl _
    · split
      · exact length_ofReading fun _ => length_boundsAfter
      · exact length_ofReading fun _ => length_classAfter
      · split
        · exact Nat.le_refl _
        · split
          · exact Nat.le_succ _
          · exact Nat.le_refl _
      · exact Nat.le_refl _
      · exact Nat.le_refl _
      · exact Nat.le_refl _
      · unfold textAfter
        simp only
        split <;> simp
  · exact Nat.le_refl _
  · exact Nat.zero_le _

/-- The lexemes of a row of glyphs. -/
def ofGlyphs (glyphs : List Glyph) : List Lexeme :=
  match glyphs with
  | [] => []
  | g :: rest =>
    let first := next g rest
    have : first.2.length < (g :: rest).length := Nat.lt_succ_of_le (length_next g rest)
    first.1 :: ofGlyphs first.2
termination_by glyphs.length
decreasing_by assumption

end Lexeme

end Pattern

end LongestMatch
