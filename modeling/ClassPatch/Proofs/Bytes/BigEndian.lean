import Mathlib
import ClassPatch.Bytes.BigEndian

/-!
# Big-endian words — both directions

`value` and `bytes` undo each other: on byte strings without condition, on numbers
modulo the width. The word forms (`u16` to `i64`) follow, each as one equivalence
between a word and its bytes, which is the shape the readers consume.
-/

namespace ClassPatch.Bytes.BigEndian

theorem foldl_value (data : List UInt8) (n : Nat) :
    data.foldl (fun n b => n * 256 + b.toNat) n = n * 256 ^ data.length + value data := by
  induction data generalizing n with
  | nil => simp [value]
  | cons b rest ih =>
    have hvalue : value (b :: rest) = b.toNat * 256 ^ rest.length + value rest := by
      rw [value, List.foldl_cons, ih, Nat.zero_mul, Nat.zero_add]
    rw [List.foldl_cons, ih, hvalue, List.length_cons, pow_succ]
    ring

theorem value_cons (b : UInt8) (rest : List UInt8) :
    value (b :: rest) = b.toNat * 256 ^ rest.length + value rest := by
  rw [value, List.foldl_cons, foldl_value]
  simp

theorem value_lt (data : List UInt8) : value data < 256 ^ data.length := by
  induction data with
  | nil => simp [value]
  | cons b rest ih =>
    have hb : b.toNat + 1 ≤ 256 := b.toNat_lt
    calc value (b :: rest) = b.toNat * 256 ^ rest.length + value rest := value_cons b rest
      _ < b.toNat * 256 ^ rest.length + 256 ^ rest.length := by omega
      _ = (b.toNat + 1) * 256 ^ rest.length := by ring
      _ ≤ 256 * 256 ^ rest.length := Nat.mul_le_mul_right _ hb
      _ = 256 ^ (b :: rest).length := by rw [List.length_cons, pow_succ]; ring

theorem shiftRight_byte (n width : Nat) : n >>> (8 * width) = n / 256 ^ width := by
  rw [Nat.shiftRight_eq_div_pow, pow_mul]
  norm_num

/-- The bytes of a number depend on its low part only. -/
theorem bytes_add_mul (width n k : Nat) : bytes width (n + k * 256 ^ width) = bytes width n := by
  induction width generalizing k with
  | zero => rfl
  | succ width ih =>
    have hsplit : n + k * 256 ^ (width + 1) = n + k * 256 * 256 ^ width := by ring
    have hpos : 0 < 256 ^ width := by positivity
    rw [bytes, bytes, hsplit, ih, shiftRight_byte, shiftRight_byte,
      Nat.add_mul_div_right _ _ hpos]
    congr 1
    apply UInt8.toNat_inj.mp
    rw [UInt8.toNat_ofNat', UInt8.toNat_ofNat']
    omega

theorem bytes_value (data : List UInt8) : bytes data.length (value data) = data := by
  induction data with
  | nil => rfl
  | cons b rest ih =>
    have hlt := value_lt rest
    rw [List.length_cons, bytes, value_cons, shiftRight_byte, Nat.add_comm,
      bytes_add_mul, ih, Nat.add_mul_div_right _ _ (by positivity), Nat.div_eq_of_lt hlt]
    simp

theorem value_bytes (width n : Nat) : value (bytes width n) = n % 256 ^ width := by
  induction width with
  | zero => simp [bytes, value, Nat.mod_one]
  | succ width ih =>
    rw [bytes, value_cons, ih, length_bytes, shiftRight_byte, UInt8.toNat_ofNat',
      pow_succ 256 width, Nat.mod_mul]
    ring

/-- A byte string is the form of a number exactly if the number is its value. -/
theorem eq_bytes_iff {width n : Nat} {data : List UInt8} (hn : n < 256 ^ width) :
    data = bytes width n ↔ data.length = width ∧ value data = n := by
  constructor
  · rintro rfl
    exact ⟨length_bytes width n, by rw [value_bytes, Nat.mod_eq_of_lt hn]⟩
  · rintro ⟨rfl, rfl⟩
    exact (bytes_value data).symm

/-! ## Words -/

@[simp] theorem length_u16 (word : UInt16) : (u16 word).length = 2 := length_bytes _ _

@[simp] theorem length_u32 (word : UInt32) : (u32 word).length = 4 := length_bytes _ _

@[simp] theorem length_u64 (word : UInt64) : (u64 word).length = 8 := length_bytes _ _

@[simp] theorem length_i16 (word : Int16) : (i16 word).length = 2 := length_bytes _ _

@[simp] theorem length_i32 (word : Int32) : (i32 word).length = 4 := length_bytes _ _

@[simp] theorem length_i64 (word : Int64) : (i64 word).length = 8 := length_bytes _ _

theorem eq_u16_iff {data : List UInt8} {word : UInt16} :
    data = u16 word ↔ data.length = 2 ∧ word = UInt16.ofNat (value data) := by
  rw [u16, eq_bytes_iff word.toNat_lt]
  refine and_congr_right fun hlen => ?_
  have hlt := hlen ▸ value_lt data
  rw [← UInt16.toNat_inj, UInt16.toNat_ofNat_of_lt' hlt, eq_comm]

theorem eq_u32_iff {data : List UInt8} {word : UInt32} :
    data = u32 word ↔ data.length = 4 ∧ word = UInt32.ofNat (value data) := by
  rw [u32, eq_bytes_iff word.toNat_lt]
  refine and_congr_right fun hlen => ?_
  have hlt := hlen ▸ value_lt data
  rw [← UInt32.toNat_inj, UInt32.toNat_ofNat_of_lt' hlt, eq_comm]

theorem eq_u64_iff {data : List UInt8} {word : UInt64} :
    data = u64 word ↔ data.length = 8 ∧ word = UInt64.ofNat (value data) := by
  rw [u64, eq_bytes_iff word.toNat_lt]
  refine and_congr_right fun hlen => ?_
  have hlt := hlen ▸ value_lt data
  rw [← UInt64.toNat_inj, UInt64.toNat_ofNat_of_lt' hlt, eq_comm]

end ClassPatch.Bytes.BigEndian
