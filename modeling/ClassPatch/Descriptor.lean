import ClassPatch.Error

/-!
# Descriptors

The types by which fields and methods are linked, and their written forms: one letter for a
primitive type, `L` and `;` around a class name, `[` before the component of an array, and the
parameters of a method in parentheses before its return type.
-/

namespace ClassPatch

/-- The type of a field, a parameter or a returned value. -/
inductive FieldType where
  | byte | char | double | float | int | long | short | boolean
  | object (name : String)
  | array (component : FieldType)
deriving Repr, DecidableEq

/-- The result of a method. -/
inductive ReturnType where
  | void
  | value (type : FieldType)
deriving Repr, DecidableEq

/-- The parameters and the result of a method. -/
structure MethodDescriptor where
  params : List FieldType
  ret : ReturnType
deriving Repr, DecidableEq

/-! ## Written forms -/

namespace FieldType

/-- The characters of a written type. -/
def chars : FieldType → List Char
  | byte => ['B']
  | char => ['C']
  | double => ['D']
  | float => ['F']
  | int => ['I']
  | long => ['J']
  | short => ['S']
  | boolean => ['Z']
  | object name => 'L' :: name.toList ++ [';']
  | array component => '[' :: component.chars

/-- The written form of a type. -/
def text (type : FieldType) : String := String.ofList type.chars

/-- The type at the head of `text` and what follows it. -/
def read? : List Char → Option (FieldType × List Char)
  | 'B' :: rest => some (byte, rest)
  | 'C' :: rest => some (char, rest)
  | 'D' :: rest => some (double, rest)
  | 'F' :: rest => some (float, rest)
  | 'I' :: rest => some (int, rest)
  | 'J' :: rest => some (long, rest)
  | 'S' :: rest => some (short, rest)
  | 'Z' :: rest => some (boolean, rest)
  | 'L' :: rest =>
    let name := rest.takeWhile (· != ';')
    match rest.drop name.length with
    | [] => none
    | _ :: after => if name.isEmpty then none else some (object (String.ofList name), after)
  | '[' :: rest =>
    match read? rest with
    | some (component, after) => some (array component, after)
    | none => none
  | _ => none

/-- The type that a text writes. -/
def parse? (text : String) : Option FieldType :=
  match read? text.toList with
  | some (type, []) => some type
  | _ => none

/-- The type that a text writes. -/
def parse (text : String) : Except Error FieldType :=
  (parse? text).elim (.error (.invalidDescriptor text)) .ok

end FieldType

namespace ReturnType

/-- The characters of a written result. -/
def chars : ReturnType → List Char
  | void => ['V']
  | value type => type.chars

/-- The written form of a result. -/
def text (ret : ReturnType) : String := String.ofList ret.chars

/-- The result that a text writes. -/
def parse (text : String) : Except Error ReturnType :=
  if text = "V" then .ok void else (FieldType.parse text).map value

end ReturnType

namespace MethodDescriptor

/-- The characters of a written descriptor. -/
def chars (d : MethodDescriptor) : List Char :=
  '(' :: d.params.flatMap FieldType.chars ++ ')' :: d.ret.chars

/-- The written form of a descriptor. -/
def text (d : MethodDescriptor) : String := String.ofList d.chars

/-- The parameters up to the closing parenthesis, after those in `acc` (last one first), and what
follows. Every parameter takes at least one character, so a bound on the text is one on the
parameters. -/
def readParams? (acc : List FieldType) : Nat → List Char → Option (List FieldType × List Char)
  | _, ')' :: rest => some (acc.reverse, rest)
  | 0, _ => none
  | bound + 1, rest =>
    match FieldType.read? rest with
    | some (type, after) => readParams? (type :: acc) bound after
    | none => none

/-- The result that makes up a whole text. -/
def readRet? : List Char → Option ReturnType
  | ['V'] => some .void
  | rest =>
    match FieldType.read? rest with
    | some (type, []) => some (.value type)
    | _ => none

/-- The descriptor that a text writes. -/
def parse? (text : String) : Option MethodDescriptor :=
  match text.toList with
  | '(' :: rest =>
    match readParams? [] rest.length rest with
    | some (params, after) => (readRet? after).map (⟨params, ·⟩)
    | none => none
  | _ => none

/-- The descriptor that a text writes. -/
def parse (text : String) : Except Error MethodDescriptor :=
  (parse? text).elim (.error (.invalidDescriptor text)) .ok

end MethodDescriptor

/-! ## Slots and boxes -/

/-- The local variable and stack slots of a value of the type. -/
def FieldType.slots : FieldType → Nat
  | .long | .double => 2
  | _ => 1

/-- The slots of a result. -/
def ReturnType.slots : ReturnType → Nat
  | .void => 0
  | .value type => type.slots

/-- The slots of the arguments of a call, the receiver of an instance method included. -/
def MethodDescriptor.argumentSlots (d : MethodDescriptor) (isStatic : Bool) : Nat :=
  d.params.foldr (fun type slots => type.slots + slots) (if isStatic then 0 else 1)

/-- The class whose objects box a primitive type. -/
structure Wrapper where
  className : String
  /-- The method that gives the boxed value back. -/
  unboxing : String
deriving Repr, DecidableEq

namespace FieldType

/-- The wrapper of a primitive type. -/
def wrapper? : FieldType → Option Wrapper
  | byte => some ⟨"java/lang/Byte", "byteValue"⟩
  | char => some ⟨"java/lang/Character", "charValue"⟩
  | double => some ⟨"java/lang/Double", "doubleValue"⟩
  | float => some ⟨"java/lang/Float", "floatValue"⟩
  | int => some ⟨"java/lang/Integer", "intValue"⟩
  | long => some ⟨"java/lang/Long", "longValue"⟩
  | short => some ⟨"java/lang/Short", "shortValue"⟩
  | boolean => some ⟨"java/lang/Boolean", "booleanValue"⟩
  | object _ | array _ => none

/-- The description of a type in words. -/
def describe : FieldType → String
  | byte => "Byte"
  | char => "Char"
  | double => "Double"
  | float => "Float"
  | int => "Int"
  | long => "Long"
  | short => "Short"
  | boolean => "Boolean"
  | object name => "Object " ++ name
  | array component => "Array of " ++ component.text

/-- The name by which a class constant refers to a reference type. -/
def className? : FieldType → Option String
  | object name => some name
  | array component => some (array component).text
  | _ => none

end FieldType

end ClassPatch
