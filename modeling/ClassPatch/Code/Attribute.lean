import ClassPatch.Bytes.Cursor

/-!
# Attributes

Named payloads on classes, fields, methods and code, and the attribute that holds the bytecode of a
method with its exception table.
-/

namespace ClassPatch.Code

open Bytes

/-- A payload and the pool index of its name. -/
structure Attribute where
  nameIndex : UInt16
  data : List UInt8
deriving Repr, DecidableEq

namespace Attribute

/-- The next attribute. -/
def read : Reader Attribute := do
  let nameIndex ← Reader.u16
  let length ← Reader.u32
  return ⟨nameIndex, ← Reader.bytes length.toNat⟩

/-- The attributes of a counted list. -/
def readList : Reader (List Attribute) := do
  Reader.times (← Reader.u16).toNat read

/-- The stored form of an attribute. -/
def bytes (a : Attribute) : Except Error (List UInt8) :=
  if UInt32.size ≤ a.data.length then refuse .attributeTooLarge
  else .ok (BigEndian.u16 a.nameIndex ++ (BigEndian.bytes 4 a.data.length ++ a.data))

/-- The stored form of a counted list. -/
def listBytes (attributes : List Attribute) : Except Error (List UInt8) :=
  if UInt16.size ≤ attributes.length then refuse .tooManyAttributes
  else return BigEndian.bytes 2 attributes.length ++ (← attributes.mapM bytes).flatten

end Attribute

/-- A range of code whose exceptions of a class go to a handler. -/
structure ExceptionEntry where
  start : UInt16
  stop : UInt16
  handler : UInt16
  catchType : UInt16
deriving Repr, DecidableEq

namespace ExceptionEntry

/-- The next entry. -/
def read : Reader ExceptionEntry := do
  let start ← Reader.u16
  let stop ← Reader.u16
  let handler ← Reader.u16
  return ⟨start, stop, handler, ← Reader.u16⟩

/-- The stored form of an entry. -/
def bytes (entry : ExceptionEntry) : List UInt8 :=
  BigEndian.u16 entry.start ++ BigEndian.u16 entry.stop ++ BigEndian.u16 entry.handler ++
    BigEndian.u16 entry.catchType

end ExceptionEntry

/-- The code of a method. -/
structure CodeAttribute where
  maxStack : UInt16
  maxLocals : UInt16
  code : List UInt8
  exceptions : List ExceptionEntry
  attributes : List Attribute
deriving Repr, DecidableEq

namespace CodeAttribute

/-- The code attribute that fills the whole input. -/
def read : Reader CodeAttribute := do
  let maxStack ← Reader.u16
  let maxLocals ← Reader.u16
  let length ← Reader.u32
  if length = 0 then Reader.malformed .emptyCode else
  let code ← Reader.bytes length.toNat
  let exceptions ← Reader.times (← Reader.u16).toNat ExceptionEntry.read
  let attributes ← Attribute.readList
  if ← Reader.hasMore then Reader.malformed (.codeTail (← Reader.remaining))
  else return { maxStack, maxLocals, code, exceptions, attributes }

/-- The code attribute stored in `data`. -/
def parse (data : List UInt8) : Except Error CodeAttribute := read.runOn data

/-- The stored form of the attribute's payload. -/
def toBytes (c : CodeAttribute) : Except Error (List UInt8) :=
  if UInt32.size ≤ c.code.length then refuse .codeArrayTooLarge
  else if UInt16.size ≤ c.exceptions.length then refuse .tooManyExceptionEntries
  else return BigEndian.u16 c.maxStack ++ (BigEndian.u16 c.maxLocals ++
    (BigEndian.bytes 4 c.code.length ++ (c.code ++
    (BigEndian.bytes 2 c.exceptions.length ++ (c.exceptions.flatMap ExceptionEntry.bytes ++
    (← Attribute.listBytes c.attributes))))))

end CodeAttribute

end ClassPatch.Code
