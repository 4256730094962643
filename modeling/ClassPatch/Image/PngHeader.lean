import ClassPatch.Bytes.Cursor

/-!
# Image headers

The size of an image and its number of colour channels, from the first chunk of a PNG.
-/

namespace ClassPatch.Image

open Bytes Bytes.Reader

/-- The size and the number of colour channels of an image. -/
structure Header where
  width : UInt32
  height : UInt32
  channels : UInt8
deriving Repr, DecidableEq

namespace Header

/-- The header that stands for an image that cannot be read. -/
def placeholder : Header := ⟨1, 1, 3⟩

/-- The bytes that every PNG starts with. -/
def signature : List UInt8 := [0x89, 0x50, 0x4E, 0x47, 0x0D, 0x0A, 0x1A, 0x0A]

/-- The number of channels of a colour type. -/
def channels? (colourType : UInt8) : Option UInt8 :=
  if colourType = 0 then some 1
  else if colourType = 4 then some 2
  else if colourType = 2 ∨ colourType = 3 then some 3
  else if colourType = 6 then some 4
  else none

/-- Whether a side of an image has a supported length. -/
def isSide (length : UInt32) : Bool := 0 < length && length < 0x80000000

/-- The header of a PNG. -/
def read : Reader Header := do
  if (← get).rest.take 8 ≠ signature then throw .notSupported
  advance 8
  let length ← u32
  let kind ← bytes 4
  if kind ≠ [0x49, 0x48, 0x44, 0x52] ∨ length ≠ 13 then malformed .imageHeader
  let width ← u32
  let height ← u32
  let _ ← u8
  let colourType ← u8
  match channels? colourType with
  | none => malformed (.colourType colourType)
  | some channels =>
    if isSide width && isSide height then return { width, height, channels }
    else malformed (.imageSize width.toNat height.toNat)

/-- The header of the PNG in `data`. -/
def parse (data : List UInt8) : Except Error Header := read.runOn data

end Header

end ClassPatch.Image
