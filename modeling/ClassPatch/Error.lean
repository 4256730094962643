import ClassPatch.Text.Hex
import ClassPatch.Text.Utf8

/-!
# Errors

Every way in which reading, editing, redirecting or storing can fail, by its cause, and the one
wording of each cause. Damage found in an input is a `Malformation`; an edit that cannot give a
valid class is a `RewriteFault`.
-/

namespace ClassPatch

open Text

/-- Damage found while reading an input. -/
inductive Malformation where
  | emptyIdentifier (offset : Nat)
  | identifierText (offset : Nat) (fault : Utf8.Fault)
  | overlongText (offset : Nat)
  | textLead (lead : UInt8) (offset : Nat)
  | textContinuation (offset : Nat) (found : UInt8)
  | unpairedSurrogate
  | emptyPoolCount
  | poolTag (tag : UInt8) (offset : Nat)
  | wideConstantInLastSlot
  | poolIndex (index : UInt16) (slots : Nat)
  /-- `found` is the description of the constant. -/
  | constantKind (index : UInt16) (found expected : String)
  | notNameAndType (index : UInt16)
  | undefinedOpcode (opcode : UInt8) (offset : Nat)
  | branchTarget (offset : Nat) (target : Int) (codeLength : Nat)
  | tableSwitchBounds (offset : Nat) (high low : Int)
  | negativePairCount (offset : Nat)
  | wideOpcode (offset : Nat) (opcode : UInt8)
  | verificationTag (tag : UInt8)
  | frameTag (tag : UInt8)
  | frameOffset (offset codeLength : Nat)
  | frameTableTail
  | emptyCode
  | codeTail (bytes : Nat)
  | classTail (bytes : Nat)
  | methodIndex (index : Nat)
  | instructionBoundary (offset : Nat)
  | entryName (name : String)
  | resourceName (name : String)
  | imageHeader
  | colourType (tag : UInt8)
  | imageSize (width height : Nat)
deriving Repr, DecidableEq

/-- The wording of each malformation. -/
def Malformation.message : Malformation → String
  | .emptyIdentifier offset => s!"Empty identifier at offset {offset}"
  | .identifierText offset fault =>
    s!"Invalid UTF-8 identifier at offset {offset}: {fault.message}"
  | .overlongText offset => s!"Overlong modified UTF-8 sequence at byte {offset}"
  | .textLead lead offset => s!"Invalid modified UTF-8 byte {Hex.byte lead} at {offset}"
  | .textContinuation offset found =>
    s!"Expected a continuation byte at {offset}, found {Hex.byte found}"
  | .unpairedSurrogate => "Unpaired surrogate: invalid utf-16: lone surrogate found"
  | .emptyPoolCount => "Constant pool count of zero"
  | .poolTag tag offset => s!"Unknown constant pool tag {tag} at offset {offset}"
  | .wideConstantInLastSlot => "8-byte constant occupies the last constant pool slot"
  | .poolIndex index slots => s!"Invalid constant pool index {index} (pool has {slots} slots)"
  | .constantKind index found expected => s!"Constant {index} is {found}, expected {expected}"
  | .notNameAndType index => s!"Constant {index} is not a NameAndType"
  | .undefinedOpcode opcode offset => s!"Undefined opcode {Hex.byte opcode} at offset {offset}"
  | .branchTarget offset target codeLength =>
    s!"Branch at {offset} targets {target} outside of code (length {codeLength})"
  | .tableSwitchBounds offset high low => s!"tableswitch at {offset} has high {high} below low {low}"
  | .negativePairCount offset => s!"lookupswitch at {offset} has negative pair count"
  | .wideOpcode offset opcode => s!"wide prefix at {offset} applied to opcode {Hex.byte opcode}"
  | .verificationTag tag => s!"Unknown verification type tag {tag}"
  | .frameTag tag => s!"Reserved stack map frame tag {tag}"
  | .frameOffset offset codeLength =>
    s!"Stack map frame at {offset} beyond code length {codeLength}"
  | .frameTableTail => "Trailing bytes after StackMapTable"
  | .emptyCode => "Code attribute with empty code array"
  | .codeTail bytes => s!"{bytes} trailing bytes after Code attribute"
  | .classTail bytes => s!"{bytes} trailing bytes after class file"
  | .methodIndex index => s!"No method at index {index}"
  | .instructionBoundary offset => s!"Offset {offset} is not an instruction boundary"
  | .entryName name => s!"Invalid entry name {name}"
  | .resourceName name => s!"Resource name {name} has no file name"
  | .imageHeader => "PNG does not start with an IHDR chunk"
  | .colourType tag => s!"Unknown PNG color type {tag}"
  | .imageSize width height => s!"Invalid PNG dimensions {width}x{height}"

/-- A reason why an edit cannot give a structurally valid class. -/
inductive RewriteFault where
  | poolFull
  | textTooLong (bytes : Nat)
  | undefinedOpcode (opcode : UInt8)
  | emptyTableSwitch
  | tableSwitchRange
  | lookupSwitchPairs
  /-- `operand` is the description of the operand. -/
  | operandMismatch (operand : String) (opcode : UInt8)
  | noWideForm (opcode : UInt8)
  | labelPlacedTwice (label : Nat)
  | codeTooLong (bytes : Nat)
  | unplacedTarget (label : Nat)
  | shortOffset (offset : Int)
  | wideOffset (offset : Int)
  | unwidenable (opcode : UInt8)
  | tooManyFrames
  | frameLabel (label : Nat)
  | frameOffset (offset : Nat)
  | frameOrder (offset previous : Nat)
  /-- `frame` is the description of the frame. -/
  | unencodableFrame (frame : String)
  | frameLost
  | codeArrayTooLarge
  | tooManyExceptionEntries
  | tooManyAttributes
  | attributeTooLarge
  | tooManyInterfaces
  | tooManyFields
  | tooManyMethods
  | methodIndex (index : Nat)
  | abstractMethod (name : String)
  /-- `value` and `ret` are the descriptions of the constant and of the return type. -/
  | constantMismatch (value ret name descriptor : String)
  | tooManyArgumentSlots (descriptor : String)
  | tooManyScratchLocals
  | tooManyParameters
deriving Repr, DecidableEq

/-- The wording of each rewrite fault. -/
def RewriteFault.message : RewriteFault → String
  | .poolFull => "Constant pool exceeds 65535 slots"
  | .textTooLong bytes => s!"UTF-8 constant of {bytes} bytes"
  | .undefinedOpcode opcode => s!"Cannot encode undefined opcode {Hex.byte opcode}"
  | .emptyTableSwitch => "tableswitch without targets"
  | .tableSwitchRange => "tableswitch range overflows"
  | .lookupSwitchPairs => "lookupswitch with too many pairs"
  | .operandMismatch operand opcode => s!"Operand {operand} does not fit opcode {Hex.byte opcode}"
  | .noWideForm opcode => s!"Opcode {Hex.byte opcode} has no wide form"
  | .labelPlacedTwice label => s!"Label Label({label}) placed twice"
  | .codeTooLong bytes => s!"Method code of {bytes} bytes exceeds the limit"
  | .unplacedTarget label => s!"Branch to unplaced label Label({label})"
  | .shortOffset offset => s!"Branch offset {offset} out of range for 2-byte instruction"
  | .wideOffset offset => s!"Branch offset {offset} out of range"
  | .unwidenable opcode => s!"Branch {Hex.byte opcode} out of range and cannot be widened"
  | .tooManyFrames => "Too many stack map frames"
  | .frameLabel label => s!"Stack map refers to unplaced label Label({label})"
  | .frameOffset offset => s!"Stack map offset {offset} too large"
  | .frameOrder offset previous => s!"Stack map frames out of order ({offset} after {previous})"
  | .unencodableFrame frame => s!"Unencodable stack map frame {frame}"
  | .frameLost => "Stack map frame lost its instruction"
  | .codeArrayTooLarge => "Code array too large"
  | .tooManyExceptionEntries => "Too many exception table entries"
  | .tooManyAttributes => "Too many attributes"
  | .attributeTooLarge => "Attribute payload too large"
  | .tooManyInterfaces => "Too many interfaces"
  | .tooManyFields => "Too many fields"
  | .tooManyMethods => "Too many methods"
  | .methodIndex index => s!"No method at index {index}"
  | .abstractMethod name => s!"Cannot install a body in abstract method {name}"
  | .constantMismatch value ret name descriptor =>
    s!"Constant {value} does not fit return type {ret} of {name}{descriptor}"
  | .tooManyArgumentSlots descriptor => s!"Too many argument slots in {descriptor}"
  | .tooManyScratchLocals => "Scratch locals exceed the local variable limit"
  | .tooManyParameters => "Too many parameters"

/-- A failure of any operation of the library. -/
inductive Error where
  /-- The input is damaged. -/
  | malformed (cause : Malformation)
  /-- A read would cross the end of the input. -/
  | outOfBounds
  /-- The input is of no supported format. -/
  | notSupported
  /-- The input has no bytes. -/
  | empty
  /-- The text is no valid descriptor, signature or call-site key. -/
  | invalidDescriptor (text : String)
  /-- An edit cannot give a valid class. -/
  | rewriteFailed (fault : RewriteFault)
  /-- The handler of a redirected call failed. -/
  | handler (key message : String)
  /-- A handler gave a value that the call site cannot take. -/
  | incompatibleReturn (found expected : String)
  /-- A failure that carries its own text. -/
  | other (text : String)
  /-- Reading or writing a directory failed. -/
  | file
deriving Repr, DecidableEq

/-- The wording of each error. -/
def Error.message : Error → String
  | .malformed cause => s!"Malformed: {cause.message}"
  | .outOfBounds => "Out of Bound read would have occurred"
  | .notSupported => "This file type is not supported"
  | .empty => "Provided input was empty"
  | .invalidDescriptor text => s!"Invalid descriptor - {text}"
  | .rewriteFailed fault => s!"Rewrite failed - {fault.message}"
  | .handler key message => s!"Redirection handler for {key} failed: {message}"
  | .incompatibleReturn found expected =>
    s!"Redirection returned {found}, call site expects {expected}"
  | .other text => text
  | .file => "File error"

/-- The name of the kind of each error. -/
def Error.kind : Error → String
  | .malformed _ => "Malformed"
  | .outOfBounds => "OutOfBounds"
  | .notSupported => "NotSupported"
  | .empty => "Empty"
  | .invalidDescriptor _ => "InvalidDescriptor"
  | .rewriteFailed _ => "RewriteFailed"
  | .handler _ _ => "Handler"
  | .incompatibleReturn _ _ => "IncompatibleReturn"
  | .other _ => "Error"
  | .file => "FileError"

/-- Refuse an edit. -/
def refuse {α : Type} (fault : RewriteFault) : Except Error α := .error (.rewriteFailed fault)

end ClassPatch
