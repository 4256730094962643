/-!
# UTF-8

Encoding of characters in one to four bytes, and strict decoding: no overlong form, no surrogate
and nothing above U+10FFFF is accepted. A refused input is described by the length of its valid
part and of the sequence that breaks it.
-/

namespace ClassPatch.Text.Utf8

/-- The UTF-8 bytes of one character. -/
def encodeChar (c : Char) : List UInt8 :=
  let n := c.toNat
  if n < 0x80 then [UInt8.ofNat n]
  else if n < 0x800 then [UInt8.ofNat (0xC0 + n / 64), UInt8.ofNat (0x80 + n % 64)]
  else if n < 0x10000 then
    [UInt8.ofNat (0xE0 + n / 4096), UInt8.ofNat (0x80 + n / 64 % 64), UInt8.ofNat (0x80 + n % 64)]
  else
    [UInt8.ofNat (0xF0 + n / 262144), UInt8.ofNat (0x80 + n / 4096 % 64),
      UInt8.ofNat (0x80 + n / 64 % 64), UInt8.ofNat (0x80 + n % 64)]

/-- The UTF-8 bytes of a text. -/
def encode (text : String) : List UInt8 := text.toList.flatMap encodeChar

/-! ## Decoding -/

/-- Where a byte string stops being UTF-8. -/
structure Fault where
  /-- Number of bytes before the offending sequence. -/
  validUpTo : Nat
  /-- Number of bytes of the offending sequence, or none if the input ends inside it. -/
  length : Option Nat
deriving Repr, DecidableEq

/-- The text of a fault. -/
def Fault.message (fault : Fault) : String :=
  match fault.length with
  | some n => s!"invalid utf-8 sequence of {n} bytes from index {fault.validUpTo}"
  | none => s!"incomplete utf-8 byte sequence from index {fault.validUpTo}"

/-- The ranges that the bytes after a lead byte have to lie in; a byte that starts no sequence of
several bytes has none. -/
def continuations (lead : UInt8) : List (UInt8 × UInt8) :=
  if lead < 0xC2 then []
  else if lead < 0xE0 then [(0x80, 0xBF)]
  else if lead = 0xE0 then [(0xA0, 0xBF), (0x80, 0xBF)]
  else if lead = 0xED then [(0x80, 0x9F), (0x80, 0xBF)]
  else if lead < 0xF0 then [(0x80, 0xBF), (0x80, 0xBF)]
  else if lead = 0xF0 then [(0x90, 0xBF), (0x80, 0xBF), (0x80, 0xBF)]
  else if lead < 0xF4 then [(0x80, 0xBF), (0x80, 0xBF), (0x80, 0xBF)]
  else if lead = 0xF4 then [(0x80, 0x8F), (0x80, 0xBF), (0x80, 0xBF)]
  else []

/-- The value bits of a lead byte that `more` bytes follow. -/
def leadBits (lead : UInt8) (more : Nat) : Nat :=
  lead.toNat % (1 <<< (6 - more))

/-- Decode with `seen` bytes of the sequence at `start` read to `code`, the ranges in `expected`
still to come, and the characters before it in `acc`, last one first. -/
def decodeFrom (start seen code : Nat) (acc : List Char) :
    List (UInt8 × UInt8) → List UInt8 → Except Fault (List Char)
  | [], [] => .ok acc.reverse
  | _ :: _, [] => .error ⟨start, none⟩
  | [], b :: rest =>
    if b < 0x80 then decodeFrom (start + 1) 0 0 (Char.ofNat b.toNat :: acc) [] rest
    else match continuations b with
      | [] => .error ⟨start, some 1⟩
      | r :: rs => decodeFrom start 1 (leadBits b (rs.length + 1)) acc (r :: rs) rest
  | (low, high) :: expected, b :: rest =>
    if low ≤ b ∧ b ≤ high then
      let code := code * 64 + b.toNat % 64
      match expected with
      | [] => decodeFrom (start + seen + 1) 0 0 (Char.ofNat code :: acc) [] rest
      | r :: rs => decodeFrom start (seen + 1) code acc (r :: rs) rest
    else .error ⟨start, some seen⟩

/-- The text that a byte string encodes. -/
def decode (bytes : List UInt8) : Except Fault String :=
  (decodeFrom 0 0 0 [] [] bytes).map String.ofList

end ClassPatch.Text.Utf8
