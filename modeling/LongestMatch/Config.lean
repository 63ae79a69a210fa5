/-!
# Construction settings

The one setting is how much memory a transition table may spend to be fast. It decides between two
ways to store a table and never what the table means.
-/

namespace LongestMatch

/-- Settings that an automaton carries and hands on to what is built from it. -/
structure Config where
  /-- How many times the size of the compact table the direct one may have before the compact one is
  preferred. -/
  memoryForSpeed : Float32 := 1.0

namespace Config

/-- Bytes of one entry of a direct table. -/
def slotBytes : Nat := 4

/-- Bytes of one entry of a compact table. -/
def rangeBytes : Nat := 12

/-- Whether a direct table of `slots` entries is chosen over a compact one of `ranges` entries. The
comparison is made in double precision; with a factor that is not a number the answer is no. -/
def prefersDense (config : Config) (slots ranges : Nat) : Bool :=
  Float.ofNat (slots * slotBytes) ≤
    Float.ofNat (ranges * rangeBytes) * config.memoryForSpeed.toFloat

end Config

end LongestMatch
