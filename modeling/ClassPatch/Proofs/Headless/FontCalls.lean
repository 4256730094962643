import Mathlib
import ClassPatch.Headless.FontCalls
import ClassPatch.Proofs.Host.Registry

/-!
# Names of initialized fonts

What a program learns about its fonts: the calls that load fonts and ask for names, in any order,
while the objects that stand for the fonts come and go. A font without names leaves the names that
its object had before.
-/

namespace ClassPatch.Headless.FontCalls

open Font Host

variable {r : Registry} {h : Heap} {cache : CacheId}

/-! ## Single calls -/

/-- The calls for fonts are answered from the cache. -/
def Serves (cache : CacheId) (r : Registry) : Prop :=
  ∀ entry ∈ handlers cache, r.lookup? entry.1 = some entry.2

theorem serves_redirectAll (r : Registry) (cache : CacheId) (h : Heap) :
    Serves cache (r.redirectAll (handlers cache) h).1 := by
  have hkeys : ((handlers cache).map (·.1)).Nodup := by
    show [initFont, getFontNameString, getNumberOfFonts, scaleForPixelHeight, getFontVMetrics].Nodup
    decide +kernel
  exact fun entry hentry => Registry.lookup?_redirectAll r hkeys hentry h

/-- The object that a call initializes with a font, if it has one for it. -/
def loaded? : List Value → Option (ObjectId × List UInt8)
  | .object owner :: .bytes data :: _ => some (owner, data.toList)
  | _ => none

/-- The names of a font, none if it has no records. -/
def namesOf? (font : List UInt8) : Option NameTable :=
  if (NameTable.parse font).records.isEmpty then none else some (NameTable.parse font)

/-- The names of objects after an object was initialized with a font. -/
def learn (names : ObjectId → Option NameTable) : Option (ObjectId × List UInt8) →
    ObjectId → Option NameTable
  | some (owner, font) => Function.update names owner ((namesOf? font).or (names owner))
  | none => names

theorem loaded?_eq_some {arguments : List Value} {owner : ObjectId} {font : List UInt8}
    (hload : loaded? arguments = some (owner, font)) :
    ∃ data rest, arguments = .object owner :: .bytes data :: rest ∧ font = data.toList := by
  unfold loaded? at hload
  split at hload
  · cases hload
    exact ⟨_, _, rfl, rfl⟩
  · cases hload

/-- A call that loads a font succeeds, and a font with names replaces what is remembered. -/
theorem runInit_eq_ok (cache : CacheId) (call : Call) (h : Heap) : ∃ h',
    runInit cache call h = .ok (.bool true) h' ∧ (∀ id, h'.Live id ↔ h.Live id) ∧
      ∀ names, h.Remembers cache names →
        h'.Remembers cache (learn names (loaded? call.arguments)) := by
  cases hload : loaded? call.arguments with
  | none =>
    have hrun : runInit cache call = pure (.bool true) := by
      unfold runInit
      split
      · rename_i harguments
        rw [harguments] at hload
        cases hload
      · rfl
    exact ⟨h, by rw [hrun]; rfl, fun id => Iff.rfl, fun names hnames => hnames⟩
  | some load =>
    obtain ⟨owner, font⟩ := load
    obtain ⟨data, rest, harguments, rfl⟩ := loaded?_eq_some hload
    rw [runInit, harguments]
    by_cases hempty : (NameTable.parse data.toList).records.isEmpty
    · refine ⟨h, by simp only [hempty]; rfl, fun id => Iff.rfl, fun names hnames => ?_⟩
      rw [learn, namesOf?, if_pos hempty, Option.none_or, Function.update_eq_self]
      exact hnames
    · refine ⟨h.rememberFont cache owner (NameTable.parse data.toList), by simp only [hempty]; rfl,
        fun id => Heap.live_rememberFont h owner id _, fun names hnames => ?_⟩
      rw [learn, namesOf?, if_neg hempty, Option.some_or]
      exact hnames.rememberFont owner _

/-- The name that a call asks for, as far as names are known. -/
def asked? (names : ObjectId → Option NameTable) : List Value → Option NameRecord
  | .object owner :: arguments => do
    let table ← names owner
    table.lookup? (← query? arguments)
  | _ => none

/-- The answer that gives a name, null if there is none. -/
def answer : Option NameRecord → Value
  | some record => .bytes record.data.toArray
  | none => .null

theorem adapt_answer (record : Option NameRecord) (className : String) :
    (answer record).adapt (.value (.object className)) = .ok (answer record) := by
  cases record <;> rfl

/-- A call that asks for a name succeeds and leaves the heap as it is. -/
theorem runName_eq_ok (cache : CacheId) (call : Call) (h : Heap) :
    runName cache call h = .ok (answer (asked? (h.fontNames? cache) call.arguments)) h := by
  unfold runName
  cases call.arguments with
  | nil => rfl
  | cons first arguments =>
    cases first with
    | object owner =>
      show (match asked? (h.fontNames? cache) (.object owner :: arguments) with
        | some record => pure (.bytes record.data.toArray)
        | none => pure Value.null : Host.Action Value) h = _
      cases asked? (h.fontNames? cache) (.object owner :: arguments) <;> rfl
    | _ => rfl

/-- The arguments of a call that asks for a name. -/
def nameArguments (info : ObjectId) (query : NameQuery) : List Value :=
  let int (n : UInt16) : Value := .int (Int32.ofNat n.toNat)
  [.object info, int query.platform, int query.encoding, int query.language, int query.name]

theorem identifier?_int (n : UInt16) : identifier? (.int (Int32.ofNat n.toNat)) = some n := by
  have hn := n.toNat_lt
  have hint : (Int32.ofNat n.toNat).toInt = n.toNat :=
    Int32.toInt_ofNat_of_lt (by omega)
  have hrange : 0 ≤ Int32.ofNat n.toNat ∧ Int32.ofNat n.toNat < 65536 := by
    rw [Int32.le_iff_toInt_le, Int32.lt_iff_toInt_lt, hint]
    constructor
    · show (0 : Int) ≤ _
      omega
    · show _ < (65536 : Int)
      omega
  rw [identifier?, if_pos hrange, hint, Int.toNat_natCast, UInt16.ofNat_toNat]

theorem asked?_nameArguments (names : ObjectId → Option NameTable) (info : ObjectId)
    (query : NameQuery) :
    asked? names (nameArguments info query) = (names info).bind (·.lookup? query) := by
  simp [nameArguments, asked?, query?, identifier?_int]

/-- The type of the answers to calls for names. -/
def nameType : ReturnType := .value (.object "java/nio/ByteBuffer")

theorem dispatch_initFont (hserves : Serves cache r) (receiver : Value) (arguments : List Value)
    (h : Heap) : ∃ h',
      r.dispatch initFont receiver (.value .boolean) arguments h = .ok (.bool true) h' ∧
        (∀ id, h'.Live id ↔ h.Live id) ∧ ∀ names, h.Remembers cache names →
          h'.Remembers cache (learn names (loaded? arguments)) := by
  have hlookup : r.lookup? initFont = some (.ofRun (runInit cache)) :=
    hserves (initFont, _) List.mem_cons_self
  have hparts : initFont.parts = .ok ⟨"org/lwjgl/stb/STBTruetype", "stbtt_InitFont",
      "(Lorg/lwjgl/stb/STBTTFontinfo;Ljava/nio/ByteBuffer;)Z"⟩ := by decide +kernel
  obtain ⟨h', hrun, hnames⟩ := runInit_eq_ok cache ⟨receiver, _, .value .boolean, arguments⟩ h
  exact ⟨h', Registry.dispatch_eq_ok hlookup hparts hrun rfl (by simp), hnames⟩

theorem dispatch_getFontNameString (hserves : Serves cache r) (receiver : Value)
    (arguments : List Value) (h : Heap) :
    r.dispatch getFontNameString receiver nameType arguments h =
      .ok (answer (asked? (h.fontNames? cache) arguments)) h := by
  have hlookup : r.lookup? getFontNameString = some (.ofRun (runName cache)) :=
    hserves (getFontNameString, _) (List.mem_cons_of_mem _ List.mem_cons_self)
  have hparts : getFontNameString.parts = .ok ⟨"org/lwjgl/stb/STBTruetype",
      "stbtt_GetFontNameString", "(Lorg/lwjgl/stb/STBTTFontinfo;IIII)Ljava/nio/ByteBuffer;"⟩ := by
    decide +kernel
  exact Registry.dispatch_eq_ok hlookup hparts (runName_eq_ok cache _ h) (adapt_answer _ _)
    (by simp [nameType])

/-! ## Programs -/

/-- A step of a program with fonts: objects come and go, and calls are dispatched. -/
inductive FontStep where
  | create (className : String)
  | retain (id : ObjectId)
  | release (id : ObjectId)
  | init (receiver : Value) (arguments : List Value)
  | name (receiver : Value) (arguments : List Value)
deriving DecidableEq

/-- The heap that a call leaves behind, also where it fails. -/
def heapAfter {α : Type} (call : Host.Action α) (h : Heap) : Heap :=
  match call h with
  | .ok _ h' => h'
  | .error _ h' => h'

namespace FontStep

/-- The heap after a step, where a registry answers the calls. -/
def run (r : Registry) (h : Heap) : FontStep → Heap
  | .create className => (h.create className).2
  | .retain id => h.retain id
  | .release id => h.release id
  | .init receiver arguments =>
    heapAfter (r.dispatch initFont receiver (.value .boolean) arguments) h
  | .name receiver arguments => heapAfter (r.dispatch getFontNameString receiver nameType arguments) h

/-- The object that a step initializes with a font, if it has one for it. -/
def loaded? : FontStep → Option (ObjectId × List UInt8)
  | .init _ arguments => FontCalls.loaded? arguments
  | _ => none

/-- A step adds to the known names what it initializes. -/
theorem remembers_run (hserves : Serves cache r) {names : ObjectId → Option NameTable}
    (hnames : h.Remembers cache names) (step : FontStep) :
    (step.run r h).Remembers cache (learn names step.loaded?) := by
  cases step with
  | create className => exact (Heap.spares_create hnames.allocated className).remembers hnames
  | retain id => exact (Heap.spares_retain hnames.allocated id).remembers hnames
  | release id => exact (Heap.spares_release hnames.allocated id).remembers hnames
  | init receiver arguments =>
    obtain ⟨h', hdispatch, -, hlearn⟩ := dispatch_initFont hserves receiver arguments h
    rw [run, heapAfter, hdispatch]
    exact hlearn names hnames
  | name receiver arguments =>
    rw [run, heapAfter, dispatch_getFontNameString hserves]
    exact hnames

/-- An object lives until one of its handles is dropped. -/
theorem live_run (hserves : Serves cache r) {id : ObjectId} (hlive : h.Live id) {step : FontStep}
    (hstep : step ≠ .release id) : (step.run r h).Live id := by
  cases step with
  | create className => exact hlive.create className
  | retain other => exact (Heap.live_retain h other id).mpr hlive
  | release other => exact hlive.release fun hsame => hstep (hsame ▸ rfl)
  | init receiver arguments =>
    obtain ⟨h', hdispatch, hsame, -⟩ := dispatch_initFont hserves receiver arguments h
    rw [run, heapAfter, hdispatch]
    exact (hsame id).mpr hlive
  | name receiver arguments =>
    rw [run, heapAfter, dispatch_getFontNameString hserves]
    exact hlive

end FontStep

/-- The heap after a program. -/
def runSteps (r : Registry) (h : Heap) (steps : List FontStep) : Heap :=
  steps.foldl (FontStep.run r) h

/-- The fonts that an object was initialized with, in order. -/
def fontsOf (info : ObjectId) (steps : List FontStep) : List (List UInt8) :=
  steps.filterMap fun step => (step.loaded?.filter (·.1 = info)).map (·.2)

/-- The names of the last font that has any. -/
def lastNames (fonts : List (List UInt8)) : Option NameTable :=
  (fonts.filterMap namesOf?).getLast?

theorem lastNames_append (fonts : List (List UInt8)) (font : List UInt8) :
    lastNames (fonts ++ [font]) = (namesOf? font).or (lastNames fonts) := by
  rw [lastNames, List.filterMap_append, List.getLast?_append]
  cases hnames : namesOf? font <;> simp [hnames, lastNames]

theorem lastNames_fontsOf_append (info : ObjectId) (steps : List FontStep) (step : FontStep) :
    lastNames (fontsOf info (steps ++ [step])) =
      learn (fun id => lastNames (fontsOf id steps)) step.loaded? info := by
  rw [fontsOf, List.filterMap_append]
  cases hload : step.loaded? with
  | none => simp [hload, learn, fontsOf]
  | some load =>
    obtain ⟨owner, font⟩ := load
    by_cases howner : owner = info
    · subst howner
      simp only [List.filterMap_cons, List.filterMap_nil, hload, Option.filter_some, decide_true,
        if_true, Option.map_some, learn, Function.update_self]
      exact lastNames_append _ font
    · simp [hload, howner, learn, fontsOf, Function.update_of_ne (Ne.symm howner)]

/-- What is remembered after a program is the names of the last fonts that have any. -/
theorem remembers_runSteps (hserves : Serves cache r) (hstart : h.Remembers cache fun _ => none)
    (steps : List FontStep) :
    (runSteps r h steps).Remembers cache fun info => lastNames (fontsOf info steps) := by
  -- on the steps from the last one, as later fonts come before earlier ones
  induction steps using List.reverseRecOn with
  | nil => exact hstart
  | append_singleton steps step ih =>
    have hstep := FontStep.remembers_run hserves ih step
    rw [← funext fun info => lastNames_fontsOf_append info steps step] at hstep
    rw [runSteps, List.foldl_append]
    exact hstep

theorem live_runSteps (hserves : Serves cache r) {id : ObjectId} (hlive : h.Live id)
    {steps : List FontStep} (hsteps : ∀ step ∈ steps, step ≠ .release id) :
    (runSteps r h steps).Live id := by
  induction steps generalizing h with
  | nil => exact hlive
  | cons step steps ih =>
    obtain ⟨hstep, hsteps⟩ := List.forall_mem_cons.mp hsteps
    exact ih (FontStep.live_run hserves hlive hstep) hsteps

/-- The handlers of font calls over a new cache. -/
def register (r : Registry) (h : Heap) : Registry × Heap :=
  r.redirectAll (handlers h.createCache.1) h.createCache.2

theorem serves_register (r : Registry) (h : Heap) : Serves h.createCache.1 (register r h).1 :=
  serves_redirectAll r _ _

/-- The last font with names answers for the last font, unless that one has no names and a font
before it has some. -/
theorem lookup?_lastNames {fonts : List (List UInt8)}
    (hfonts : ∀ font, fonts.getLast? = some font → namesOf? font = none →
      ∀ earlier ∈ fonts, namesOf? earlier = none) (query : NameQuery) :
    (lastNames fonts).bind (·.lookup? query) =
      (fonts.getLast?.map NameTable.parse).bind (·.lookup? query) := by
  cases fonts using List.reverseRecOn with
  | nil => rfl
  | append_singleton earlier font =>
    have hlast : (earlier ++ [font]).getLast? = some font := by simp
    rw [lastNames_append, hlast]
    cases hnames : namesOf? font with
    | some table =>
      have htable : table = NameTable.parse font := by
        unfold namesOf? at hnames
        split at hnames
        · cases hnames
        · exact (Option.some.inj hnames).symm
      rw [Option.some_or, Option.map_some, htable]
    | none =>
      -- nothing is known, and there is nothing to find in the last font either
      have hnone : lastNames earlier = none := by
        have hempty : earlier.filterMap namesOf? = [] :=
          List.filterMap_eq_nil_iff.mpr fun font' hfont' =>
            hfonts font hlast hnames font' (List.mem_append_left _ hfont')
        rw [lastNames, hempty]
        rfl
      have hrecords : (NameTable.parse font).records = [] := by
        unfold namesOf? at hnames
        split at hnames
        · exact List.isEmpty_iff.mp ‹_›
        · cases hnames
      rw [Option.none_or, hnone, Option.map_some, Option.bind_some, NameTable.lookup?, hrecords]
      rfl

/-- What is remembered after a program that starts with the registration of the font calls. -/
theorem dispatch_name_after (r : Registry) (hall : h.Allocated) (steps : List FontStep)
    {info : ObjectId} (hinfo : (runSteps (register r h).1 (register r h).2 steps).Live info)
    (receiver : Value) (query : NameQuery) :
    (register r h).1.dispatch getFontNameString receiver nameType (nameArguments info query)
        (runSteps (register r h).1 (register r h).2 steps) =
      .ok (answer ((lastNames (fontsOf info steps)).bind (·.lookup? query)))
        (runSteps (register r h).1 (register r h).2 steps) := by
  have hserves := serves_register r h
  have hfresh := Heap.remembers_createCache hall
  have hstart : (register r h).2.Remembers h.createCache.1 fun _ => none :=
    (Registry.spares_redirectAll hfresh.allocated r _).remembers hfresh
  have hnames := (remembers_runSteps hserves hstart steps).fontNames? info hinfo.not_dead
  rw [dispatch_getFontNameString hserves, asked?_nameArguments, hnames]

/-- A name is that of the last font with names which the object was initialized with. It is that of
the last font of all, unless that font has no names and a font before it has some. -/
theorem dispatch_name_of_runSteps (r : Registry) (hall : h.Allocated) {steps : List FontStep}
    {heap : Heap} (hheap : runSteps (register r h).1 (register r h).2 steps = heap)
    {info : ObjectId} (hinfo : heap.Live info) (receiver : Value) (query : NameQuery) :
    (register r h).1.dispatch getFontNameString receiver nameType (nameArguments info query) heap =
        .ok (answer ((lastNames (fontsOf info steps)).bind (·.lookup? query))) heap ∧
      ((∀ font, (fontsOf info steps).getLast? = some font → namesOf? font = none →
          ∀ earlier ∈ fontsOf info steps, namesOf? earlier = none) →
        (register r h).1.dispatch getFontNameString receiver nameType (nameArguments info query)
            heap =
          .ok (answer (((fontsOf info steps).getLast?.map NameTable.parse).bind
            (·.lookup? query))) heap) := by
  subst hheap
  have hdispatch := dispatch_name_after r hall steps hinfo receiver query
  refine ⟨hdispatch, fun hfonts => ?_⟩
  rw [hdispatch, lookup?_lastNames hfonts]

/-! ## Two programs -/

/-- A font with one name of one letter. -/
def letterFont (letter : UInt8) : Array UInt8 :=
  #[0, 1, 0, 0, 0, 1, 0, 0, 0, 0, 0, 0,
    0x6E, 0x61, 0x6D, 0x65, 0, 0, 0, 0, 0, 0, 0, 28, 0, 0, 0, 19,
    0, 0, 0, 1, 0, 18, 0, 1, 0, 0, 0, 0, 0, 1, 0, 1, 0, 0, letter]

/-- The first object that a program creates lives until the program drops a handle to it. -/
theorem live_first {className : String} {steps rest : List FontStep}
    (hsteps : steps = .create className :: rest) (hrest : ∀ step ∈ rest, step ≠ .release ⟨0⟩) :
    (runSteps (register .empty .empty).1 (register .empty .empty).2 steps).Live ⟨0⟩ := by
  have hserves := serves_register .empty .empty
  have hnext : (register .empty .empty).2.nextObject = 0 := Registry.nextObject_redirectAll _ _ _
  have hid : ((register .empty .empty).2.create className).1 = ⟨0⟩ := by
    rw [Heap.create, hnext]
  have hfirst := Heap.live_create (register .empty .empty).2 className
  rw [hid] at hfirst
  rw [hsteps]
  exact live_runSteps hserves hfirst hrest

/-- Two objects with fonts, the first of which gets another one. -/
def reloading : List FontStep :=
  [.create "org/lwjgl/stb/STBTTFontinfo", .create "org/lwjgl/stb/STBTTFontinfo",
    .init .null [.object ⟨0⟩, .bytes (letterFont 65)],
    .init .null [.object ⟨1⟩, .bytes (letterFont 66)],
    .init .null [.object ⟨0⟩, .bytes (letterFont 67)], .release ⟨1⟩]

theorem dispatch_name_of_runSteps_reloading :
    (runSteps (register .empty .empty).1 (register .empty .empty).2 reloading).Live ⟨0⟩ ∧
      (register .empty .empty).1.dispatch getFontNameString .null nameType
          (nameArguments ⟨0⟩ ⟨1, 0, 0, 1⟩)
          (runSteps (register .empty .empty).1 (register .empty .empty).2 reloading) =
        .ok (.bytes #[67])
          (runSteps (register .empty .empty).1 (register .empty .empty).2 reloading) := by
  have hlive : (runSteps (register .empty .empty).1 (register .empty .empty).2 reloading).Live
      ⟨0⟩ := live_first rfl (by decide)
  have hlast : answer ((lastNames (fontsOf ⟨0⟩ reloading)).bind (·.lookup? ⟨1, 0, 0, 1⟩)) =
      .bytes #[67] := by decide +kernel
  obtain ⟨hdispatch, -⟩ :=
    dispatch_name_of_runSteps .empty Heap.allocated_empty rfl hlive .null ⟨1, 0, 0, 1⟩
  rw [hlast] at hdispatch
  exact ⟨hlive, hdispatch⟩

/-- An object whose second font is no font at all. -/
def spoiling : List FontStep :=
  [.create "org/lwjgl/stb/STBTTFontinfo", .init .null [.object ⟨0⟩, .bytes (letterFont 65)],
    .init .null [.object ⟨0⟩, .bytes #[]]]

/-- The name of the first font is still given after the second one was loaded, which has none. -/
theorem dispatch_name_spoiling :
    (runSteps (register .empty .empty).1 (register .empty .empty).2 spoiling).Live ⟨0⟩ ∧
      (register .empty .empty).1.dispatch getFontNameString .null nameType
          (nameArguments ⟨0⟩ ⟨1, 0, 0, 1⟩)
          (runSteps (register .empty .empty).1 (register .empty .empty).2 spoiling) =
        .ok (.bytes #[65])
          (runSteps (register .empty .empty).1 (register .empty .empty).2 spoiling) ∧
      answer (((fontsOf ⟨0⟩ spoiling).getLast?.map NameTable.parse).bind
        (·.lookup? ⟨1, 0, 0, 1⟩)) = .null := by
  have hlive : (runSteps (register .empty .empty).1 (register .empty .empty).2 spoiling).Live
      ⟨0⟩ := live_first rfl (by decide)
  have hlast : answer ((lastNames (fontsOf ⟨0⟩ spoiling)).bind (·.lookup? ⟨1, 0, 0, 1⟩)) =
      .bytes #[65] := by decide +kernel
  have hdispatch :=
    dispatch_name_after .empty Heap.allocated_empty spoiling hlive .null ⟨1, 0, 0, 1⟩
  rw [hlast] at hdispatch
  exact ⟨hlive, hdispatch, by decide +kernel⟩

end ClassPatch.Headless.FontCalls
