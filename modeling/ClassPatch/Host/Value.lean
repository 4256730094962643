import ClassPatch.Descriptor

/-!
# Host values

The values that pass between redirected calls and their handlers. Objects and integer buffers are
shared: a value holds their identity, and two of them are equal if they are the same one.
Floating-point values are kept and compared by their bits.
-/

namespace ClassPatch.Host

/-- The identity of an object. Identities are counted up without bound: a counter of 64 bits does not
come round while a program runs. -/
structure ObjectId where
  number : Nat
deriving Repr, DecidableEq, Hashable

/-- The identity of an integer buffer. -/
structure BufferId where
  number : Nat
deriving Repr, DecidableEq

/-- A value of a redirected call. -/
inductive Value where
  | null
  | bool (value : Bool)
  | int (value : Int32)
  | long (value : Int64)
  | float (bits : UInt32)
  | double (bits : UInt64)
  | string (text : String)
  | bytes (data : Array UInt8)
  | ints (buffer : BufferId)
  | object (id : ObjectId)
deriving Repr, DecidableEq

namespace Value

/-- The name of a value's kind in messages. -/
def kind : Value → String
  | null => "null"
  | bool _ => "boolean"
  | int _ => "int"
  | long _ => "long"
  | float _ => "float"
  | double _ => "double"
  | string _ => "string"
  | bytes _ => "bytes"
  | ints _ => "int buffer"
  | object _ => "object"

/-- The value of an integer. -/
def int? : Value → Option Int32
  | int value => some value
  | _ => none

/-- The bits of a single-precision value. -/
def float? : Value → Option UInt32
  | float bits => some bits
  | _ => none

/-- The bytes of a byte buffer. -/
def bytes? : Value → Option (Array UInt8)
  | bytes data => some data
  | _ => none

/-- The zero of a type: null for references. -/
def zeroOf : FieldType → Value
  | .boolean => bool false
  | .long => long 0
  | .float => float 0
  | .double => double 0
  | .object _ | .array _ => null
  | _ => int 0

/-- The value that a call gives in place of a missing one. -/
def defaultFor : ReturnType → Value
  | .void => null
  | .value type => zeroOf type

/-- The integers that a type narrower than `int` holds, as an inclusive range. -/
def narrowRange? : FieldType → Option (Int32 × Int32)
  | .byte => some (-128, 127)
  | .short => some (-32768, 32767)
  | .char => some (0, 65535)
  | _ => none

/-- Whether a value that is not null is one of the type. -/
def isOf (value : Value) (type : FieldType) : Bool :=
  match type, value with
  | .boolean, bool _ | .int, int _ | .long, long _ | .float, float _ | .double, double _ => true
  | .byte, int n | .short, int n | .char, int n =>
    (narrowRange? type).any fun (low, high) => low ≤ n && n ≤ high
  | .object _, string _ | .object _, bytes _ | .object _, ints _ | .object _, object _ => true
  | .array _, string _ | .array _, bytes _ | .array _, ints _ | .array _, object _ => true
  | _, _ => false

/-- The value that a call site takes in place of a handler's result: nothing for `void`, the zero of
the type for null, and otherwise the result itself, which must be of the type. -/
def adapt (value : Value) : ReturnType → Except Error Value
  | .void => .ok null
  | .value type =>
    if value = null then .ok (zeroOf type)
    else if value.isOf type then .ok value
    else .error (.incompatibleReturn value.kind type.text)

end Value

end ClassPatch.Host
