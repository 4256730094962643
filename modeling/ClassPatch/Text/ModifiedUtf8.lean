import ClassPatch.Error
import ClassPatch.Text.Utf16
import ClassPatch.Text.Utf8

/-!
# Modified UTF-8

The encoding of text constants in class files. Every UTF-16 unit is encoded on its own in one to
three bytes, and U+0000 takes two, so that no byte is zero. Decoding accepts exactly what encoding
produces. Where a text has neither U+0000 nor a character above U+FFFF its encoding is its UTF-8,
and both directions take this shorter way if they can.
-/

namespace ClassPatch.Text.ModifiedUtf8

/-- The bytes of one UTF-16 unit. -/
def encodeUnit (unit : UInt16) : List UInt8 :=
  let n := unit.toNat
  if 0 < n ∧ n < 0x80 then [UInt8.ofNat n]
  else if n < 0x800 then [UInt8.ofNat (0xC0 + n / 64), UInt8.ofNat (0x80 + n % 64)]
  else
    [UInt8.ofNat (0xE0 + n / 4096), UInt8.ofNat (0x80 + n / 64 % 64), UInt8.ofNat (0x80 + n % 64)]

/-- The bytes of a text, unit by unit. -/
def encodeUnits (text : String) : List UInt8 := (Utf16.encode text).flatMap encodeUnit

/-- Whether no byte is zero or starts a sequence of four bytes. UTF-8 without such bytes is modified
UTF-8 too. -/
def isPlain (data : List UInt8) : Bool := data.all fun b => b != 0 && b < 0xF0

/-- The bytes of a text. -/
def encode (text : String) : List UInt8 :=
  let data := Utf8.encode text
  if isPlain data then data else encodeUnits text

/-! ## Decoding -/

/-- The six value bits of the continuation byte at the head of `data`, which stands at `pos`. -/
def continuation (pos : Nat) (data : List UInt8) : Except Error Nat :=
  match data with
  | [] => .error .outOfBounds
  | b :: _ =>
    if 0x80 ≤ b ∧ b < 0xC0 then .ok (b.toNat % 64)
    else .error (.malformed (.textContinuation pos b))

/-- The unit that starts with `lead` at `pos` before `data`, and the number of bytes it takes from
`data`. -/
def readUnit (pos : Nat) (lead : UInt8) (data : List UInt8) : Except Error (Nat × Nat) :=
  if 0 < lead ∧ lead < 0x80 then .ok (lead.toNat, 0)
  else if 0xC0 ≤ lead ∧ lead < 0xE0 then do
    let unit := lead.toNat % 32 * 64 + (← continuation (pos + 1) data)
    if 0 < unit ∧ unit < 0x80 then .error (.malformed (.overlongText pos)) else .ok (unit, 1)
  else if 0xE0 ≤ lead ∧ lead < 0xF0 then do
    let second ← continuation (pos + 1) data
    let third ← continuation (pos + 2) (data.drop 1)
    let unit := lead.toNat % 16 * 4096 + second * 64 + third
    if unit < 0x800 then .error (.malformed (.overlongText pos)) else .ok (unit, 2)
  else .error (.malformed (.textLead lead pos))

/-- The units of the bytes from `pos` on, of which `skip` belong to a unit already read, after the
units in `acc` (last one first). -/
def unitsFrom (pos skip : Nat) (acc : List UInt16) : List UInt8 → Except Error (List UInt16)
  | [] => .ok acc.reverse
  | b :: rest =>
    match skip with
    | n + 1 => unitsFrom (pos + 1) n acc rest
    | 0 =>
      match readUnit pos b rest with
      | .error e => .error e
      | .ok (unit, width) => unitsFrom (pos + 1) width (UInt16.ofNat unit :: acc) rest

/-- The text of a byte string, unit by unit. -/
def decodeUnits (data : List UInt8) : Except Error String := do
  match Utf16.decode? (← unitsFrom 0 0 [] data) with
  | some text => .ok text
  | none => .error (.malformed .unpairedSurrogate)

/-- The text of a byte string. -/
def decode (data : List UInt8) : Except Error String :=
  if isPlain data then
    match Utf8.decode data with
    | .ok text => .ok text
    | .error _ => decodeUnits data
  else decodeUnits data

end ClassPatch.Text.ModifiedUtf8
