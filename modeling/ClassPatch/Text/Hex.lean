/-!
# Hexadecimal digits

Lower-case digits of bytes and numbers in the forms that messages use, and bytes as pairs of digits.
-/

namespace ClassPatch.Text.Hex

/-- The lower-case hexadecimal digit of a number below 16. -/
def digit (n : Nat) : Char :=
  if n < 10 then Char.ofNat (48 + n) else Char.ofNat (87 + n)

/-- The hexadecimal digits of a number, without leading zeros and `0` for zero. -/
def digits (n : Nat) : List Char := Nat.toDigits 16 n

/-- The mark `0x` and the two digits of a byte. -/
def byte (b : UInt8) : String :=
  String.ofList ['0', 'x', digit (b.toNat / 16), digit (b.toNat % 16)]

/-- Bytes as pairs of digits. -/
def text (data : List UInt8) : String :=
  String.ofList (data.flatMap fun b => [digit (b.toNat / 16), digit (b.toNat % 16)])

/-- The number that a lower-case digit stands for. -/
def digitValue (c : Char) : Nat := if c.isDigit then c.toNat - 48 else c.toNat - 87

/-- The bytes of pairs of digits, after those in `acc`, which are in reverse. -/
def readPairs (acc : List UInt8) : List Char → List UInt8
  | high :: low :: rest =>
    readPairs (UInt8.ofNat (digitValue high * 16 + digitValue low) :: acc) rest
  | _ => acc.reverse

/-- The bytes that a text of pairs of digits stands for. -/
def bytes (text : String) : List UInt8 := readPairs [] text.toList

end ClassPatch.Text.Hex
