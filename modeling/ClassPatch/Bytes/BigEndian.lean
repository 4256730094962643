/-!
# Big-endian words

Numbers as byte strings with the most significant byte first. `bytes` and `value` are inverse to
each other on numbers that fit.
-/

namespace ClassPatch.Bytes.BigEndian

/-- The `width` low bytes of a number, most significant one first. -/
def bytes : Nat → Nat → List UInt8
  | 0, _ => []
  | width + 1, n => UInt8.ofNat (n >>> (8 * width)) :: bytes width n

/-- The number that a byte string writes. -/
def value (data : List UInt8) : Nat :=
  data.foldl (fun n b => n * 256 + b.toNat) 0

@[simp] theorem length_bytes (width n : Nat) : (bytes width n).length = width := by
  induction width with
  | zero => rfl
  | succ width ih => simp [bytes, ih]

/-- The two bytes of a 16-bit word. -/
def u16 (word : UInt16) : List UInt8 := bytes 2 word.toNat

/-- The four bytes of a 32-bit word. -/
def u32 (word : UInt32) : List UInt8 := bytes 4 word.toNat

/-- The eight bytes of a 64-bit word. -/
def u64 (word : UInt64) : List UInt8 := bytes 8 word.toNat

/-- The two bytes of a signed 16-bit word. -/
def i16 (word : Int16) : List UInt8 := u16 word.toUInt16

/-- The four bytes of a signed 32-bit word. -/
def i32 (word : Int32) : List UInt8 := u32 word.toUInt32

/-- The eight bytes of a signed 64-bit word. -/
def i64 (word : Int64) : List UInt8 := u64 word.toUInt64

end ClassPatch.Bytes.BigEndian
