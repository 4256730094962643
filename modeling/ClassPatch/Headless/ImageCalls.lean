import ClassPatch.Headless.FontCalls
import ClassPatch.Image.PngHeader

/-!
# Redirected image calls

A handler that answers the loading of an image with an empty picture of the right size.
-/

namespace ClassPatch.Headless

open Host Image

namespace ImageCalls

/-- The call that loads an image from its bytes. -/
def loadFromMemory : MethodKey :=
  ⟨"Lorg/lwjgl/stb/STBImage;stbi_load_from_memory(Ljava/nio/ByteBuffer;Ljava/nio/IntBuffer;" ++
    "Ljava/nio/IntBuffer;Ljava/nio/IntBuffer;I)Ljava/nio/ByteBuffer;"⟩

/-- The largest picture in bytes. -/
def maxPixelBytes : Nat := 256 * 1024 * 1024

/-- The header of the image in the first argument, that of a placeholder if it cannot be read. -/
def header (arguments : List Value) : Header :=
  match arguments with
  | .bytes data :: _ =>
    match Header.parse data.toList with
    | .ok header => header
    | .error _ => .placeholder
  | _ => .placeholder

/-- The number of channels asked for; zero, or no number, asks for those of the image. -/
def desired (arguments : List Value) : Int32 := ((arguments[4]?).bind (·.int?)).getD 0

/-- The failure of the handler. -/
def failure (message : String) : Error := .handler loadFromMemory.text message

/-- Report the size of an image and its channels in buffers, and give a picture of zeros. -/
def runLoad (call : Call) : Action Value := do
  let image := header call.arguments
  let wanted := desired call.arguments
  if wanted < 0 ∨ 4 < wanted then throw (failure s!"desired channels {wanted}")
  let channels := if wanted = 0 then image.channels.toNat else wanted.toInt.toNat
  FontCalls.report ((call.arguments.drop 1).zip
    [image.width.toInt32, image.height.toInt32, Int32.ofNat image.channels.toNat])
  let size := image.width.toNat * image.height.toNat * channels
  if maxPixelBytes < size then
    throw (failure s!"{image.width}x{image.height} image is too large")
  else return .bytes (Array.replicate size 0)

/-- The handlers of image calls. -/
def handlers : List (MethodKey × Handler) := [(loadFromMemory, .ofRun runLoad)]

end ImageCalls

end ClassPatch.Headless
