import ClassPatch.Bytes.Cursor
import ClassPatch.ConstantPool.Basic
import ClassPatch.Text.ModifiedUtf8

/-!
# Stored constant pools

A pool is stored as its number of slots and one tagged constant after the other, unusable slots left
out. Reading gives back what writing stores, and every byte that is read is written again.
-/

namespace ClassPatch

open Bytes Text

namespace MemberKind

/-- The tag of a kind of member reference. -/
def tag : MemberKind → UInt8
  | .field => 9
  | .method => 10
  | .interfaceMethod => 11

end MemberKind

namespace Constant

/-! ## Writing -/

/-- The stored form of a text. -/
def textBytes (text : String) : Except Error (List UInt8) :=
  let data := ModifiedUtf8.encode text
  if UInt16.size ≤ data.length then refuse (.textTooLong data.length)
  else .ok (1 :: (BigEndian.bytes 2 data.length ++ data))

/-- The stored form of a constant. -/
def bytes : Constant → Except Error (List UInt8)
  | unusable => .ok []
  | utf8 text => textBytes text
  | integer value => .ok (3 :: BigEndian.i32 value)
  | float bits => .ok (4 :: BigEndian.u32 bits)
  | long value => .ok (5 :: BigEndian.i64 value)
  | double bits => .ok (6 :: BigEndian.u64 bits)
  | classRef name => .ok (7 :: BigEndian.u16 name)
  | string text => .ok (8 :: BigEndian.u16 text)
  | member kind owner nameType =>
    .ok (kind.tag :: (BigEndian.u16 owner ++ BigEndian.u16 nameType))
  | nameAndType name descriptor => .ok (12 :: (BigEndian.u16 name ++ BigEndian.u16 descriptor))
  | methodHandle kind reference => .ok (15 :: kind :: BigEndian.u16 reference)
  | methodType descriptor => .ok (16 :: BigEndian.u16 descriptor)
  | dynamic bootstrap nameType =>
    .ok (17 :: (BigEndian.u16 bootstrap ++ BigEndian.u16 nameType))
  | invokeDynamic bootstrap nameType =>
    .ok (18 :: (BigEndian.u16 bootstrap ++ BigEndian.u16 nameType))
  | module name => .ok (19 :: BigEndian.u16 name)
  | package name => .ok (20 :: BigEndian.u16 name)

/-! ## Reading -/

/-- A constant that holds two indices. -/
def readPair (make : UInt16 → UInt16 → Constant) : Reader Constant := do
  let first ← Reader.u16
  return make first (← Reader.u16)

/-- A text in modified UTF-8. -/
def readText : Reader Constant := do
  let data ← Reader.bytes (← Reader.u16).toNat
  match ModifiedUtf8.decode data with
  | .ok text => return utf8 text
  | .error e => throw e

/-- The next constant. -/
def read : Reader Constant := do
  let offset ← Reader.position
  let tag ← Reader.u8
  if tag = 1 then readText
  else if tag = 3 then return integer (← Reader.i32)
  else if tag = 4 then return float (← Reader.u32)
  else if tag = 5 then return long (← Reader.i64)
  else if tag = 6 then return double (← Reader.u64)
  else if tag = 7 then return classRef (← Reader.u16)
  else if tag = 8 then return string (← Reader.u16)
  else if tag = 9 then readPair (member .field)
  else if tag = 10 then readPair (member .method)
  else if tag = 11 then readPair (member .interfaceMethod)
  else if tag = 12 then readPair nameAndType
  else if tag = 15 then
    let kind ← Reader.u8
    return methodHandle kind (← Reader.u16)
  else if tag = 16 then return methodType (← Reader.u16)
  else if tag = 17 then readPair dynamic
  else if tag = 18 then readPair invokeDynamic
  else if tag = 19 then return module (← Reader.u16)
  else if tag = 20 then return package (← Reader.u16)
  else Reader.malformed (.poolTag tag offset)

end Constant

namespace ConstantPool

/-- The constants that fill the next slots, after the entries in `acc`. -/
def readEntries (acc : Array Constant) : Nat → Reader (Array Constant)
  | 0 => return acc
  | slots + 1 => do
    let c ← Constant.read
    if c.isWide then
      match slots with
      | 0 => Reader.malformed .wideConstantInLastSlot
      | slots + 1 => readEntries ((acc.push c).push .unusable) slots
    else readEntries (acc.push c) slots

/-- The next pool. -/
def read : Reader ConstantPool := do
  let count ← Reader.u16
  if count = 0 then Reader.malformed .emptyPoolCount
  else return ⟨← readEntries #[.unusable] (count.toNat - 1)⟩

/-- The stored form of a pool. -/
def bytes (pool : ConstantPool) : Except Error (List UInt8) := do
  let count ← pool.count
  return BigEndian.u16 count ++ (← pool.entries.toList.mapM Constant.bytes).flatten

end ConstantPool

end ClassPatch
