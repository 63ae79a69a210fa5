import LongestMatch.Pattern.Lexeme
import Mathlib.Computability.Language

/-!
# The grammar of patterns, and what they mean

A pattern is written in symbols: characters as they are, and escapes (`Spells`). The symbols derive
a tree (`Derives`): an alternation of sequences, a sequence of factors, a factor being an atom with
signs after it. `Tree.language` is the language of a tree.

The grammar is stated on its own, without the reader, its lexemes or its instructions. It is left
recursive where operands are grouped to the left.
-/

namespace LongestMatch

namespace Pattern

open scoped Computability

/-! ## Symbols -/

/-- The symbols in which a text is written. An escape is one symbol. -/
inductive Spells : List Char → List Glyph.Kind → Prop where
  | nil : Spells [] []
  | plain {c : Char} {text : List Char} {ks : List Glyph.Kind} :
      c ≠ '\\' → Spells text ks → Spells (c :: text) (.plain c :: ks)
  | hex {a b c : Char} {text : List Char} {ks : List Glyph.Kind} :
      Glyph.hexChar? [a, b] = some c → Spells text ks →
        Spells ('\\' :: 'x' :: a :: b :: text) (.escaped c :: ks)
  | wide {a b d e c : Char} {text : List Char} {ks : List Glyph.Kind} :
      Glyph.hexChar? [a, b, d, e] = some c → Spells text ks →
        Spells ('\\' :: 'u' :: a :: b :: d :: e :: text) (.escaped c :: ks)
  | escaped {c : Char} {text : List Char} {ks : List Glyph.Kind} :
      c ≠ 'x' → c ≠ 'u' → Spells text ks → Spells ('\\' :: c :: text) (.escaped c :: ks)

/-- Without a backslash characters are written as they are. -/
theorem spells_plain {text : List Char} (h : '\\' ∉ text) : Spells text (text.map .plain) := by
  induction text with
  | nil => exact .nil
  | cons c text ih =>
    rw [List.mem_cons, not_or] at h
    exact .plain (Ne.symm h.1) (ih h.2)

/-- The characters that do not stand for themselves outside classes. -/
def special : List Char :=
  ['|', '(', ')', '[', '\x7b', '.', '\\', '?', '*', '+', '!', '~', '^', '@']

/-! ## Trees -/

/-- The syntax tree of a pattern. -/
inductive Tree where
  /-- A character as it is. -/
  | plain (c : Char)
  /-- A character written as an escape. -/
  | escape (c : Char)
  | any
  | set (ranges : List CharRange) (inverted : Bool)
  /-- A pattern in brackets; with `report` they are those of a reporting group. -/
  | group (report : Bool) (t : Tree)
  | unary (op : Unary) (t : Tree)
  /-- At least `min` copies, and at most `max` if there is such a bound. -/
  | times (min : Nat) (max : Option Nat) (t : Tree)
  | seq (s t : Tree)
  | or (s t : Tree)

/-- What an operator makes of a language. -/
def Unary.language : Unary → Language Char → Language Char
  | star, L => L∗
  | plus, L => L * L∗
  | optional, L => L + 1
  | withoutMatch, L => {w | w ≠ [] ∧ ∀ u v x, w = u ++ v ++ x → v ∉ L}
  | invert, L => {w | w ∉ L}
  | shortest, L => {w | w ∈ L ∧ ∀ u v, w = u ++ v → v ≠ [] → u ∉ L}
  | allPrefixes, L => {w | w ≠ [] ∧ ∃ v, w ++ v ∈ L}

/-- At least `min` members of a language in a row, and at most `max` if there is such a bound. -/
def powers (min : Nat) (max : Option Nat) (L : Language Char) : Language Char :=
  {w | ∃ k, min ≤ k ∧ (∀ n ∈ max, k ≤ n) ∧ w ∈ L ^ k}

/-- The language of a tree. -/
def Tree.language : Tree → Language Char
  | plain c => {[c]}
  | escape c => {[c]}
  | any => {w | ∃ c, w = [c]}
  | set ranges inverted =>
    {w | ∃ c, w = [c] ∧ ((∃ r ∈ ranges, r.lo ≤ c ∧ c ≤ r.hi) ↔ inverted = false)}
  | group _ t => t.language
  | unary op t => op.language t.language
  | times min max t => powers min max t.language
  | seq s t => s.language * t.language
  | or s t => s.language + t.language

/-! ## Classes -/

/-- A symbol that stands for a character in a class. -/
inductive Stands : Glyph.Kind → Char → Prop where
  | plain (c : Char) : Stands (.plain c) c
  | escaped (c : Char) : Stands (.escaped c) c

/-- An item of a class: a character or a range. Only the `first` one may begin with a bare bracket
or dash, and a range does not end with a bare bracket. -/
inductive Item (first : Bool) : List Glyph.Kind → CharRange → Prop where
  | single {k : Glyph.Kind} {c : Char} :
      Stands k c → (first = false → k ≠ .plain ']' ∧ k ≠ .plain '-') →
        Item first [k] (CharRange.single c)
  | range {k l : Glyph.Kind} {lo hi : Char} :
      Stands k lo → (first = false → k ≠ .plain ']' ∧ k ≠ .plain '-') →
        Stands l hi → l ≠ .plain ']' → lo ≤ hi → Item first [k, .plain '-', l] ⟨lo, hi⟩

/-- One item or more. -/
inductive Items : Bool → List Glyph.Kind → List CharRange → Prop where
  | one {first : Bool} {ks : List Glyph.Kind} {r : CharRange} :
      Item first ks r → Items first ks [r]
  | cons {first : Bool} {ks ls : List Glyph.Kind} {r : CharRange} {rs : List CharRange} :
      Item first ks r → Items false ls rs → Items first (ks ++ ls) (r :: rs)

/-- A class in brackets. -/
inductive Class : List Glyph.Kind → List CharRange → Bool → Prop where
  | inside {ks : List Glyph.Kind} {rs : List CharRange} :
      ks.head? ≠ some (.plain '^') → Items true ks rs →
        Class (.plain '[' :: (ks ++ [.plain ']'])) rs false
  | outside {ks : List Glyph.Kind} {rs : List CharRange} :
      Items true ks rs → Class (.plain '[' :: .plain '^' :: (ks ++ [.plain ']'])) rs true

/-! ## Bounds -/

/-- The value of decimal digits, if they go on after `value`. -/
def decimal (value : Nat) (digits : List Char) : Nat :=
  digits.foldl (fun value d => value * 10 + (d.toNat - '0'.toNat)) value

/-- A number in decimal digits, below 2 to the power of 32. -/
inductive Numeral : List Glyph.Kind → Nat → Prop where
  | intro {digits : List Char} :
      digits ≠ [] → (∀ d ∈ digits, '0' ≤ d ∧ d ≤ '9') → decimal 0 digits < 2 ^ 32 →
        Numeral (digits.map .plain) (decimal 0 digits)

/-- Bounds of a repetition: at least one copy is allowed, and the bounds are in order. -/
inductive Bounds : List Glyph.Kind → Nat → Option Nat → Prop where
  | exact {ks : List Glyph.Kind} {m : Nat} :
      Numeral ks m → 1 ≤ m → Bounds (.plain '\x7b' :: (ks ++ [.plain '\x7d'])) m (some m)
  | between {ks ls : List Glyph.Kind} {m n : Nat} :
      Numeral ks m → Numeral ls n → 1 ≤ n → m ≤ n →
        Bounds (.plain '\x7b' :: (ks ++ .plain ',' :: (ls ++ [.plain '\x7d']))) m (some n)
  | atLeast {ks : List Glyph.Kind} {m : Nat} :
      Numeral ks m → Bounds (.plain '\x7b' :: (ks ++ [.plain ',', .plain '\x7d'])) m none

/-! ## Derivations -/

/-- What symbols may derive. -/
inductive Category where
  | atom
  | factor
  | sequence
  | alternation

/-- The grammar of patterns. -/
inductive Derives : Category → List Glyph.Kind → Tree → Prop where
  | plain {c : Char} : c ∉ special → Derives .atom [.plain c] (.plain c)
  | escape (c : Char) : Derives .atom [.escaped c] (.escape c)
  | any : Derives .atom [.plain '.'] .any
  | set {ks : List Glyph.Kind} {ranges : List CharRange} {inverted : Bool} :
      Class ks ranges inverted → Derives .atom ks (.set ranges inverted)
  | group {ks : List Glyph.Kind} {t : Tree} :
      Derives .alternation ks t →
        Derives .atom (.plain '(' :: (ks ++ [.plain ')'])) (.group false t)
  | report {ks : List Glyph.Kind} {t : Tree} :
      Derives .alternation ks t →
        Derives .atom (.plain '(' :: .plain '!' :: (ks ++ [.plain ')'])) (.group true t)
  | atom {ks : List Glyph.Kind} {t : Tree} : Derives .atom ks t → Derives .factor ks t
  | unary {ks : List Glyph.Kind} {t : Tree} (op : Unary) :
      Derives .factor ks t → Derives .factor (ks ++ [.plain op.sign]) (.unary op t)
  | times {ks ls : List Glyph.Kind} {min : Nat} {max : Option Nat} {t : Tree} :
      Derives .factor ks t → Bounds ls min max →
        Derives .factor (ks ++ ls) (.times min max t)
  | factor {ks : List Glyph.Kind} {t : Tree} : Derives .factor ks t → Derives .sequence ks t
  | seq {ks ls : List Glyph.Kind} {s t : Tree} :
      Derives .sequence ks s → Derives .factor ls t → Derives .sequence (ks ++ ls) (.seq s t)
  | sequence {ks : List Glyph.Kind} {t : Tree} :
      Derives .sequence ks t → Derives .alternation ks t
  | or {ks ls : List Glyph.Kind} {s t : Tree} :
      Derives .alternation ks s → Derives .sequence ls t →
        Derives .alternation (ks ++ .plain '|' :: ls) (.or s t)

/-- A syntax tree of a pattern. -/
def Tree.Of (t : Tree) (pattern : String) : Prop :=
  ∃ ks, Spells pattern.toList ks ∧ Derives .alternation ks t

end Pattern

end LongestMatch
