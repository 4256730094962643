import ClassPatch.Bytes.Cursor
import ClassPatch.Code.Assembler
import ClassPatch.Code.Frame
import ClassPatch.Code.LabelMap

/-!
# Stack map tables

The stored form of the frames of a method. A frame is stored with its distance from the frame before,
less one, so that the offsets of a table ascend. Distances up to 63 have one-byte forms where the
kind of the frame allows it, and writing always takes them.
-/

namespace ClassPatch.Code

open Bytes

/-! ## Reading -/

namespace FrameTable

open Reader

/-- A stored type. -/
def readType : Reader (VerificationType Nat) := do
  let tag ← u8
  if tag = 0 then return .top
  else if tag = 1 then return .integer
  else if tag = 2 then return .float
  else if tag = 3 then return .double
  else if tag = 4 then return .long
  else if tag = 5 then return .null
  else if tag = 6 then return .uninitializedThis
  else if tag = 7 then return .object (← u16)
  else if tag = 8 then return .uninitialized (← u16).toNat
  else malformed (.verificationTag tag)

/-- The distance and the kind of a stored frame. -/
def readKind : Reader (Nat × FrameKind Nat) := do
  let tag ← u8
  if tag < 64 then return (tag.toNat, .same)
  else if tag < 128 then return (tag.toNat - 64, .sameLocals (← readType))
  else if tag < 247 then malformed (.frameTag tag)
  else
    let distance := (← u16).toNat
    if tag = 247 then return (distance, .sameLocals (← readType))
    else if tag < 251 then return (distance, .chop (251 - tag))
    else if tag = 251 then return (distance, .same)
    else if tag < 255 then return (distance, .append (← times (tag.toNat - 251) readType))
    else
      let locals ← times (← u16).toNat readType
      let stack ← times (← u16).toNat readType
      return (distance, .full locals stack)

/-- The offset at a distance from the frame before. -/
def offsetAfter (previous : Option Nat) (distance : Nat) : Nat :=
  match previous with
  | none => distance
  | some offset => offset + distance + 1

/-- The next `n` frames, after those in `acc` (last one first). -/
def readFrames (codeLength : Nat) (acc : List (Frame Nat)) : Nat → Reader (List (Frame Nat))
  | 0 => return acc.reverse
  | n + 1 => do
    let (distance, kind) ← readKind
    let offset := offsetAfter (acc.head?.map (·.place)) distance
    if codeLength ≤ offset then malformed (.frameOffset offset codeLength)
    else readFrames codeLength (⟨offset, kind⟩ :: acc) n

/-- The frames of a table that fills the whole input. -/
def readTable (codeLength : Nat) : Reader (List (Frame Nat)) := do
  let frames ← readFrames codeLength [] (← u16).toNat
  if ← hasMore then malformed .frameTableTail else return frames

/-- The frames of a table for code of the given length, with labels as places. -/
def parse (data : List UInt8) (codeLength : Nat) (labels : LabelMap) :
    Except Error (List (Frame Label) × LabelMap) := do
  return (← (readTable codeLength).runOn data).mapM (Frame.mapPlacesM Labelling.label) labels

end FrameTable

/-! ## Writing -/

/-- The places of labels at their offsets. -/
def LabelMap.places (labels : LabelMap) : Places :=
  Std.HashMap.ofList (labels.toList.map fun (offset, label) => (label, offset))

/-- The offset of a label, which has to fit 16 bits. -/
def Places.frameOffset (places : Places) (label : Label) : Except Error Nat :=
  match places[label]? with
  | none => refuse (.frameLabel label.id)
  | some place => if place < UInt16.size then .ok place else refuse (.frameOffset place)

/-- The stored form of a type. -/
def VerificationType.bytes (places : Places) : VerificationType Label → Except Error (List UInt8)
  | .top => .ok [0]
  | .integer => .ok [1]
  | .float => .ok [2]
  | .double => .ok [3]
  | .long => .ok [4]
  | .null => .ok [5]
  | .uninitializedThis => .ok [6]
  | .object index => .ok (7 :: BigEndian.u16 index)
  | .uninitialized creation => return 8 :: BigEndian.bytes 2 (← places.frameOffset creation)

namespace FrameTable

/-- The stored form of a list of types. -/
def typeBytes (places : Places) (types : List (VerificationType Label)) :
    Except Error (List UInt8) :=
  return (← types.mapM (VerificationType.bytes places)).flatten

end FrameTable

open FrameTable in
/-- The stored form of a change at a distance from the frame before. -/
def FrameKind.bytes (places : Places) (distance : Nat) :
    FrameKind Label → Except Error (List UInt8)
  | .same =>
    .ok (if distance < 64 then [UInt8.ofNat distance] else 251 :: BigEndian.bytes 2 distance)
  | .sameLocals stack =>
    return (if distance < 64 then [UInt8.ofNat (64 + distance)]
      else 247 :: BigEndian.bytes 2 distance) ++ (← stack.bytes places)
  | .chop count =>
    if 1 ≤ count ∧ count ≤ 3 then .ok ((251 - count) :: BigEndian.bytes 2 distance)
    else refuse (.unencodableFrame (FrameKind.describe (.chop count)))
  | .append locals =>
    if 1 ≤ locals.length ∧ locals.length ≤ 3 then
      return UInt8.ofNat (251 + locals.length) :: (BigEndian.bytes 2 distance ++
        (← typeBytes places locals))
    else refuse (.unencodableFrame (FrameKind.describe (.append locals)))
  | .full locals stack => do
    let localBytes ← typeBytes places locals
    return 255 :: (BigEndian.bytes 2 distance ++ BigEndian.bytes 2 locals.length ++ localBytes ++
      BigEndian.bytes 2 stack.length ++ (← typeBytes places stack))

namespace FrameTable

/-- The distance of a frame at `offset` from the frame before. -/
def distanceAfter (previous : Option Nat) (offset : Nat) : Except Error Nat :=
  match previous with
  | none => .ok offset
  | some before =>
    if before < offset then .ok (offset - before - 1) else refuse (.frameOrder offset before)

/-- The stored forms of frames after one at `previous`, after those in `acc` (last one first). -/
def writeFrames (places : Places) (previous : Option Nat) (acc : List (List UInt8)) :
    List (Frame Label) → Except Error (List UInt8)
  | [] => .ok acc.reverse.flatten
  | frame :: rest => do
    let offset ← places.frameOffset frame.place
    let distance ← distanceAfter previous offset
    let data ← frame.kind.bytes places distance
    writeFrames places (some offset) (data :: acc) rest

/-- The stored form of a table. -/
def write (frames : List (Frame Label)) (places : Places) : Except Error (List UInt8) := do
  if UInt16.size ≤ frames.length then refuse .tooManyFrames
  else return BigEndian.bytes 2 frames.length ++ (← writeFrames places none [] frames)

end FrameTable

end ClassPatch.Code
