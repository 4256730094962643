/-!
# Shortest decimals

The decimal with the fewest digits that a binary floating-point format reads back as a given value.
Of several such decimals the nearest to the value is taken, and of two equally near ones the larger.
All arithmetic is exact.
-/

namespace ClassPatch.Decimal

/-- A positive value and the bounds of the reals that round to it, as fractions with a common
denominator. The bounds themselves round to the value if the range is closed. -/
structure RoundingRange where
  low : Nat
  value : Nat
  high : Nat
  den : Nat
  closed : Bool

/-- The decimal `digits` times ten to the power `exponent`. -/
structure Scientific where
  digits : Nat
  exponent : Int
deriving Repr, DecidableEq

namespace RoundingRange

/-- The range counted in units of ten to the power `k`. -/
def inUnits (r : RoundingRange) (k : Int) : RoundingRange :=
  if 0 ≤ k then { r with den := r.den * Nat.pow 10 k.toNat }
  else
    let scale := Nat.pow 10 (-k).toNat
    { r with low := r.low * scale, value := r.value * scale, high := r.high * scale }

/-- Whether a whole number of units rounds to the value. -/
def holds (r : RoundingRange) (n : Nat) : Bool :=
  if r.closed then r.low ≤ n * r.den && n * r.den ≤ r.high
  else r.low < n * r.den && n * r.den < r.high

/-- The whole number of units that rounds to the value and is nearest to it, the larger of two
equally near ones. Only the two neighbours of the value can be. -/
def nearest? (r : RoundingRange) : Option Nat :=
  let below := r.value / r.den
  let above := below + 1
  if r.holds below && (!r.holds above || 2 * r.value < (below + above) * r.den) then some below
  else if r.holds above then some above
  else none

/-- The power of ten of the value's leading digit. -/
def magnitude (r : RoundingRange) : Int :=
  if r.den ≤ r.value then (Nat.toDigits 10 (r.value / r.den)).length - 1
  else -((Nat.toDigits 10 ((r.den - 1) / r.value)).length : Int)

/-- The first decimal of `digits` or more digits, at most `more` more, that rounds to the value. -/
def search (r : RoundingRange) (digits : Nat) : Nat → Scientific
  | 0 => ⟨0, 0⟩
  | more + 1 =>
    let exponent := r.magnitude - digits + 1
    match (r.inUnits exponent).nearest? with
    | some n => ⟨n, exponent⟩
    | none => search r (digits + 1) more

end RoundingRange

/-! ## Binary formats -/

/-- A binary floating-point format by the widths of its fields. -/
structure BinaryFormat where
  fractionBits : Nat
  exponentBits : Nat

/-- The single-precision format. -/
def binary32 : BinaryFormat := ⟨23, 8⟩

/-- The double-precision format. -/
def binary64 : BinaryFormat := ⟨52, 11⟩

namespace BinaryFormat

/-- The sign bit of a value. -/
def isNegative (f : BinaryFormat) (bits : Nat) : Bool :=
  bits.testBit (f.fractionBits + f.exponentBits)

/-- The biased exponent of a value. -/
def exponentField (f : BinaryFormat) (bits : Nat) : Nat :=
  bits >>> f.fractionBits % Nat.pow 2 f.exponentBits

/-- The fraction of a value. -/
def fraction (f : BinaryFormat) (bits : Nat) : Nat := bits % Nat.pow 2 f.fractionBits

/-- Whether a value is infinite or not a number. -/
def isSpecial (f : BinaryFormat) (bits : Nat) : Bool :=
  f.exponentField bits = Nat.pow 2 f.exponentBits - 1

/-- Whether a value is not a number. -/
def isNaN (f : BinaryFormat) (bits : Nat) : Bool := f.isSpecial bits && f.fraction bits != 0

/-- The significand of a finite value, without its sign. -/
def significand (f : BinaryFormat) (bits : Nat) : Nat :=
  if f.exponentField bits = 0 then f.fraction bits else Nat.pow 2 f.fractionBits + f.fraction bits

/-- The power of two that the significand of a finite value is multiplied by. -/
def exponent (f : BinaryFormat) (bits : Nat) : Int :=
  (max (f.exponentField bits) 1 : Nat) - (Nat.pow 2 (f.exponentBits - 1) - 1 : Nat) - f.fractionBits

/-- The reals that round to a finite value other than zero, in quarters of its last place. The gap
below a power of two is half as wide as the gap above, save for the smallest one. -/
def roundingRange (f : BinaryFormat) (bits : Nat) : RoundingRange :=
  let m := f.significand bits
  let q := f.exponent bits - 2
  let narrow := f.fraction bits = 0 ∧ 1 < f.exponentField bits
  let up := Nat.pow 2 q.toNat
  { low := (4 * m - if narrow then 1 else 2) * up
    value := 4 * m * up
    high := (4 * m + 2) * up
    den := Nat.pow 2 (-q).toNat
    closed := m % 2 = 0 }

/-- The shortest decimal of a finite value, without its sign. -/
def shortest (f : BinaryFormat) (bits : Nat) : Scientific :=
  if f.significand bits = 0 then ⟨0, 0⟩ else (f.roundingRange bits).search 1 17

end BinaryFormat

/-! ## Positional notation -/

/-- The digits of a number without zeros at its end, and how many zeros were dropped. -/
def dropZeros (digits : List Char) : List Char × Nat :=
  let kept := (digits.reverse.dropWhile (· == '0')).reverse
  (kept, digits.length - kept.length)

/-- A decimal with all its zeros written out, and with a point only before a fraction. -/
def Scientific.positional (s : Scientific) : List Char :=
  if s.digits = 0 then ['0']
  else
    let (digits, zeros) := dropZeros (Nat.toDigits 10 s.digits)
    let exponent := s.exponent + zeros
    if 0 ≤ exponent then digits ++ List.replicate exponent.toNat '0'
    else
      let places := (-exponent).toNat
      if places < digits.length then
        digits.take (digits.length - places) ++ '.' :: digits.drop (digits.length - places)
      else '0' :: '.' :: List.replicate (places - digits.length) '0' ++ digits

/-- The text of a value: its shortest decimal in positional notation. -/
def BinaryFormat.text (f : BinaryFormat) (bits : Nat) : String :=
  if f.isNaN bits then "NaN"
  else
    let magnitude := if f.isSpecial bits then "inf" else String.ofList (f.shortest bits).positional
    if f.isNegative bits then "-" ++ magnitude else magnitude

end ClassPatch.Decimal
