import ClassPatch.Host.Registry

/-!
# Redirected font calls

Handlers that answer font calls without the native library: names are read from the font's own table
and remembered with the object that stands for the font, and measures are fixed.
-/

namespace ClassPatch.Headless

open Font Host

/-! ## Keys -/

namespace FontCalls

/-- The call that loads a font. -/
def initFont : MethodKey :=
  ⟨"Lorg/lwjgl/stb/STBTruetype;stbtt_InitFont(Lorg/lwjgl/stb/STBTTFontinfo;Ljava/nio/ByteBuffer;)Z"⟩

/-- The call that reads a name of a font. -/
def getFontNameString : MethodKey :=
  ⟨"Lorg/lwjgl/stb/STBTruetype;stbtt_GetFontNameString(" ++
    "Lorg/lwjgl/stb/STBTTFontinfo;IIII)Ljava/nio/ByteBuffer;"⟩

/-- The call that counts the fonts in a file. -/
def getNumberOfFonts : MethodKey :=
  ⟨"Lorg/lwjgl/stb/STBTruetype;stbtt_GetNumberOfFonts(Ljava/nio/ByteBuffer;)I"⟩

/-- The call that gives the scale for a pixel height. -/
def scaleForPixelHeight : MethodKey :=
  ⟨"Lorg/lwjgl/stb/STBTruetype;stbtt_ScaleForPixelHeight(Lorg/lwjgl/stb/STBTTFontinfo;F)F"⟩

/-- The call that reports the vertical measures of a font. -/
def getFontVMetrics : MethodKey :=
  ⟨"Lorg/lwjgl/stb/STBTruetype;stbtt_GetFontVMetrics(Lorg/lwjgl/stb/STBTTFontinfo;" ++
    "Ljava/nio/IntBuffer;Ljava/nio/IntBuffer;Ljava/nio/IntBuffer;)V"⟩

/-! ## Handlers -/

/-- Put integers at the starts of buffers; arguments that are no buffers are passed over. -/
def report : List (Value × Int32) → Action Unit
  | [] => return ()
  | (.ints buffer, n) :: rest => do
    match (← get).put? buffer 0 n with
    | some h => set h
    | none => throw .outOfBounds
    report rest
  | _ :: rest => report rest

/-- Remember the names of a font with the object in the first argument. A font without names changes
nothing, and the call always succeeds. -/
def runInit (cache : CacheId) (call : Call) : Action Value := do
  match call.arguments with
  | .object owner :: .bytes data :: _ =>
    let table := NameTable.parse data.toList
    if !table.records.isEmpty then modify (·.rememberFont cache owner table)
  | _ => return .bool true
  return .bool true

/-- The identifier that an argument gives, which has 16 bits. -/
def identifier? : Value → Option UInt16
  | .int n => if 0 ≤ n ∧ n < 65536 then some (UInt16.ofNat n.toInt.toNat) else none
  | _ => none

/-- The query in the arguments after the first. -/
def query? : List Value → Option NameQuery
  | platform :: encoding :: language :: name :: _ => do
    let platform ← identifier? platform
    let encoding ← identifier? encoding
    let language ← identifier? language
    return ⟨platform, encoding, language, ← identifier? name⟩
  | _ => none

/-- The name that answers a query on the object in the first argument, null if there is none. -/
def runName (cache : CacheId) (call : Call) : Action Value := do
  match call.arguments with
  | .object owner :: arguments =>
    let h ← get
    let record := do
      let table ← h.fontNames? cache owner
      table.lookup? (← query? arguments)
    match record with
    | some record => return .bytes record.data.toArray
    | none => return .null
  | _ => return .null

/-- The units of a font's design square, which its measures are relative to. -/
def unitsPerSquare : Float32 := 2048

/-- The scale for a pixel height. -/
def runScale (call : Call) : Action Value :=
  match call.arguments with
  | _ :: .float bits :: _ => return .float (Float32.ofBits bits / unitsPerSquare).toBits
  | _ => throw (.handler scaleForPixelHeight.text "pixel height is not a float")

/-- The ascent, the descent and the line gap of every font. -/
def metrics : List Int32 := [1800, -400, 0]

/-- Report the metrics in the buffers after the first argument. -/
def runMetrics (call : Call) : Action Value := do
  report ((call.arguments.drop 1).zip metrics)
  return .null

/-- The handlers of font calls over a cache of font names. -/
def handlers (cache : CacheId) : List (MethodKey × Handler) :=
  [(initFont, .ofRun (runInit cache)),
   (getFontNameString, .ofRun (runName cache)),
   (getNumberOfFonts, .constant (.int 1)),
   (scaleForPixelHeight, .ofRun runScale),
   (getFontVMetrics, .ofRun runMetrics)]

/-! ## Asking for a name -/

/-- The name that a registry's handlers give for an object. -/
def fontName (r : Registry) (info : Value) (query : NameQuery) : Action (Option (Array UInt8)) := do
  let int (n : UInt16) : Value := .int (Int32.ofNat n.toNat)
  let value ← r.dispatch getFontNameString .null (.value (.object "java/nio/ByteBuffer"))
    [info, int query.platform, int query.encoding, int query.language, int query.name]
  modify (·.releaseValue value)
  match value with
  | .bytes data => return some data
  | _ => return none

end FontCalls

end ClassPatch.Headless
