import ClassPatch.ClassFile.Basic
import ClassPatch.ConstantPool.Format

/-!
# Stored classes

The stored form of a class, and its reader, which refuses bytes after the class and a class whose name
does not resolve. A class that is read is written with the same bytes.
-/

namespace ClassPatch

open Bytes Code

namespace Member

/-- The next member. -/
def read : Reader Member := do
  let access ← Reader.u16
  let nameIndex ← Reader.u16
  let descriptorIndex ← Reader.u16
  return { access, nameIndex, descriptorIndex, attributes := ← Attribute.readList }

/-- The members of a counted list. -/
def readList : Reader (List Member) := do Reader.times (← Reader.u16).toNat read

/-- The stored form of a member. -/
def bytes (m : Member) : Except Error (List UInt8) :=
  return BigEndian.u16 m.access ++ (BigEndian.u16 m.nameIndex ++
    (BigEndian.u16 m.descriptorIndex ++ (← Attribute.listBytes m.attributes)))

/-- The stored form of a counted list, whose count is refused with a fault of its own. -/
def listBytes (fault : RewriteFault) (members : List Member) : Except Error (List UInt8) :=
  if UInt16.size ≤ members.length then refuse fault
  else return BigEndian.bytes 2 members.length ++ (← members.mapM bytes).flatten

end Member

namespace ClassFile

/-- The mark at the start of every class. -/
def magic : UInt32 := 0xCAFEBABE

/-- The newest supported format. -/
def maxMajorVersion : UInt16 := 69

/-- The class that fills the whole input. -/
def read : Reader ClassFile := do
  if (← Reader.u32) ≠ magic then throw .notSupported
  let minorVersion ← Reader.u16
  let majorVersion ← Reader.u16
  if maxMajorVersion < majorVersion then throw .notSupported
  let pool ← ConstantPool.read
  let access ← Reader.u16
  let thisClass ← Reader.u16
  let superClass ← Reader.u16
  let interfaces ← Reader.times (← Reader.u16).toNat Reader.u16
  let fields ← Member.readList
  let methods ← Member.readList
  let attributes ← Attribute.readList
  if ← Reader.hasMore then Reader.malformed (.classTail (← Reader.remaining))
  else return { minorVersion, majorVersion, pool, access, thisClass, superClass, interfaces,
                fields, methods, attributes }

/-- The class stored in `data`. -/
def parse (data : List UInt8) : Except Error ClassFile :=
  if data.isEmpty then .error .empty
  else do
    let c ← read.runOn data
    let _ ← c.name
    return c

/-- The stored form of a counted list of interfaces. -/
def interfaceBytes (interfaces : List UInt16) : Except Error (List UInt8) :=
  if UInt16.size ≤ interfaces.length then refuse .tooManyInterfaces
  else .ok (BigEndian.bytes 2 interfaces.length ++ interfaces.flatMap BigEndian.u16)

/-- The stored form of a class. -/
def toBytes (c : ClassFile) : Except Error (List UInt8) := do
  let pool ← c.pool.bytes
  let interfaces ← interfaceBytes c.interfaces
  let fields ← Member.listBytes .tooManyFields c.fields
  let methods ← Member.listBytes .tooManyMethods c.methods
  let attributes ← Attribute.listBytes c.attributes
  return BigEndian.u32 magic ++ (BigEndian.u16 c.minorVersion ++ (BigEndian.u16 c.majorVersion ++
    (pool ++ (BigEndian.u16 c.access ++ (BigEndian.u16 c.thisClass ++ (BigEndian.u16 c.superClass ++
    (interfaces ++ (fields ++ (methods ++ attributes)))))))))

end ClassFile

end ClassPatch
