/-!
# UTF-16

The 16-bit units of a text and their decoding. A unit that is half of no pair is an unpaired
surrogate: strict decoding refuses it, lossy decoding puts U+FFFD in its place.
-/

namespace ClassPatch.Text.Utf16

/-- The units of one character: a surrogate pair above U+FFFF. -/
def encodeChar (c : Char) : List UInt16 :=
  let n := c.toNat
  if n < 0x10000 then [UInt16.ofNat n]
  else [UInt16.ofNat (0xD800 + (n - 0x10000) / 1024), UInt16.ofNat (0xDC00 + (n - 0x10000) % 1024)]

/-- The units of a text. -/
def encode (text : String) : List UInt16 := text.toList.flatMap encodeChar

/-- Whether the unit is the first half of a pair. -/
def isHigh (unit : UInt16) : Bool := 0xD800 ≤ unit && unit < 0xDC00

/-- Whether the unit is the second half of a pair. -/
def isLow (unit : UInt16) : Bool := 0xDC00 ≤ unit && unit < 0xE000

/-- The character of a surrogate pair. -/
def ofPair (high low : UInt16) : Char :=
  Char.ofNat (0x10000 + (high.toNat - 0xD800) * 1024 + (low.toNat - 0xDC00))

/-- The characters of the units in order, `none` for each unpaired surrogate, after those in `acc`
(last one first). -/
def scan (acc : List (Option Char)) : List UInt16 → List (Option Char)
  | [] => acc.reverse
  | unit :: rest =>
    if isHigh unit then
      match rest with
      | [] => scan (none :: acc) []
      | next :: rest' =>
        if isLow next then scan (some (ofPair unit next) :: acc) rest'
        else scan (none :: acc) (next :: rest')
    else if isLow unit then scan (none :: acc) rest
    else scan (some (Char.ofNat unit.toNat) :: acc) rest

/-- The text of the units if every surrogate is paired. -/
def decode? (units : List UInt16) : Option String :=
  ((scan [] units).mapM id).map String.ofList

/-- The text of the units with U+FFFD for each unpaired surrogate. -/
def decodeLossy (units : List UInt16) : String :=
  String.ofList ((scan [] units).map (·.getD '\uFFFD'))

end ClassPatch.Text.Utf16
