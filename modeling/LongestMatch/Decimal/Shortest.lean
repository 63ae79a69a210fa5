/-!
# Shortest decimals

The shortest decimal that reads back as a given binary number: of all decimals that round to the
number, one with the fewest digits, of those the nearest, and of two that are equally near the
larger. A number `m · 2^q` owns the interval of reals that round to it; its ends lie half a unit
away, or a quarter where the binary exponent changes, and belong to it exactly if `m` is even. Of
the decimals with a given last place only the two next to the number can be the nearest one in the
interval, so those two are tested for one digit, two digits and so on, in exact arithmetic.
-/

namespace LongestMatch

/-- The positive number `mantissa · 2 ^ exponent`. -/
structure Binary where
  mantissa : Nat
  exponent : Int
  /-- Whether the next smaller number is only half a unit away. -/
  narrowBelow : Bool

/-- The number `digits · 10 ^ exponent`. -/
structure Decimal where
  digits : Nat
  exponent : Int

namespace Decimal

/-- The numerator and denominator of `n · base ^ exponent`. -/
def scale (base n : Nat) (exponent : Int) : Nat × Nat :=
  (n * Nat.pow base exponent.toNat, Nat.pow base (-exponent).toNat)

/-- How many decimal digits a positive number has. -/
def width (n : Nat) : Nat :=
  (Nat.toDigits 10 n).length

/-- The exponent of the leading digit of a positive fraction. -/
def leading (num den : Nat) : Int :=
  if den ≤ num then Int.ofNat (width (num / den)) - 1
  else -Int.ofNat (width ((den + num - 1) / num - 1))

/-- Whether a decimal rounds to `b`. -/
def roundsTo (b : Binary) (d : Decimal) : Bool :=
  let below := 4 * b.mantissa - (if b.narrowBelow then 1 else 2)
  let above := 4 * b.mantissa + 2
  let (x, y) := scale 10 (4 * d.digits) d.exponent
  let (lo, den) := scale 2 below b.exponent
  let (hi, _) := scale 2 above b.exponent
  if b.mantissa % 2 = 0 then lo * y ≤ x * den && x * den ≤ hi * y
  else lo * y < x * den && x * den < hi * y

/-- The nearest decimal with its last digit at `10 ^ place` that rounds to `b`, if there is one; the
larger one of two that are equally near. -/
def atPlace (b : Binary) (place : Int) : Option Decimal :=
  let (num, den) := scale 2 b.mantissa b.exponent
  let (up, down) := scale 10 1 (-place)
  let quotient := num * up / (den * down)
  let twiceRest := 2 * (num * up % (den * down))
  let floor : Decimal := ⟨quotient, place⟩
  let ceil : Decimal := ⟨quotient + 1, place⟩
  let (near, far) := if twiceRest < den * down then (floor, ceil) else (ceil, floor)
  if roundsTo b near then some near
  else if roundsTo b far then some far
  else none

/-- The number of digits that always suffices for a binary number of at most 64 bits. -/
def enoughDigits : Nat := 20

/-- The shortest decimal that rounds to `b`. -/
def shortest (b : Binary) : Decimal :=
  let (num, den) := scale 2 b.mantissa b.exponent
  let lead := leading num den
  ((List.range enoughDigits).findSome? fun n => atPlace b (lead - Int.ofNat n)).getD
    ⟨b.mantissa, 0⟩

end Decimal

/-! ## Single precision -/

/-- The leading bit of a single-precision mantissa, which is not stored. -/
def hiddenBit32 : Nat := 0x800000

/-- The magnitude of a finite single-precision number other than zero: 23 bits of the mantissa,
below 8 bits of the exponent, below the sign. -/
def Binary.ofBits32 (bits : UInt32) : Binary :=
  let fraction := bits.toNat % hiddenBit32
  let biased := bits.toNat / hiddenBit32 % 0x100
  if biased = 0 then ⟨fraction, -149, false⟩
  else ⟨hiddenBit32 + fraction, Int.ofNat biased - 150, fraction = 0 && 1 < biased⟩

/-- Where a decimal is written with an exponent: from `10 ^ start` on and below `10 ^ below`. -/
structure ExponentForm where
  start : Int
  below : Int

namespace Decimal

/-- A zero for each of `count` places. -/
def zeros (count : Nat) : List Char :=
  List.replicate count '0'

/-- A decimal as text: with a point and at least one digit behind it, or with an exponent where
`form` says so. -/
def text (form : ExponentForm) (d : Decimal) : String :=
  let all := Nat.toDigits 10 d.digits
  let digits := (all.reverse.dropWhile (· == '0')).reverse
  let lead := d.exponent + Int.ofNat all.length - 1
  if form.start ≤ lead ∨ lead < form.below then
    let fraction := match digits.drop 1 with
      | [] => []
      | rest => '.' :: rest
    String.ofList (digits.take 1 ++ fraction) ++ "e" ++ toString lead
  else if lead < 0 then
    String.ofList ('0' :: '.' :: zeros (-lead - 1).toNat ++ digits)
  else
    let whole := lead.toNat + 1
    let fraction := match digits.drop whole with
      | [] => ['0']
      | rest => rest
    String.ofList (digits.take whole ++ zeros (whole - digits.length) ++ '.' :: fraction)

/-- A single-precision number as text. -/
def text32 (form : ExponentForm) (x : Float32) : String :=
  if x.isNaN then "NaN"
  else
    let sign := if x.toBits >>> 31 == 1 then "-" else ""
    if x.isInf then sign ++ "inf"
    else if x == 0 then sign ++ "0.0"
    else sign ++ text form (shortest (Binary.ofBits32 x.toBits))

end Decimal

end LongestMatch
