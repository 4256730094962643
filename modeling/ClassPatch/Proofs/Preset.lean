import Mathlib
import ClassPatch.Preset
import ClassPatch.Proofs.Descriptor
import ClassPatch.Proofs.Pipeline.Run
import ClassPatch.Proofs.Rewrite.Contained
import ClassPatch.Proofs.Rewrite.ReturnAtOnce

/-!
# The offline patch among the presets

The patch of the session service comes last in the pipeline. The only transformer before it that
may rewrite the class is the one that redirects calls; where it does, the patch does not get the
entry. Otherwise the patch is applied, whatever other features there are.
-/

namespace ClassPatch

namespace Transformer

variable {σ : Type} {sink : Sink σ} {entry : Entry} {t : Transformer} {s : σ}

/-- Where the edit succeeds, the bytes of the entry are those of the edited class. -/
theorem getD_newData?_apply {edit : ClassEdit Unit} {data : List UInt8} (h : t.edit? = some edit)
    (hdata : editStored entry.data edit = .ok data) :
    (t.apply sink entry s).1.newData?.getD entry.data = data := by
  rw [apply_of_edit? h, rewriteStored, hdata]
  by_cases hsame : data = entry.data
  · simp [hsame, ofRewrite, Outcome.newData?]
  · simp [hsame, ofRewrite, Outcome.newData?]

theorem rewrite?_extract (path resource : String) (artifacts : ArtifactPattern) :
    rewrite? sink s path entry (extract resource artifacts) = none := by
  unfold rewrite? apply
  dsimp only
  split
  · cases sink.accept entry.name entry.data s <;> rfl
  · rfl

/-- An entry that a transformer rewrites was handed to it, and the sink was not asked. -/
theorem apply_of_rewrite? {path : String} {data : List UInt8}
    (h : rewrite? sink s path entry t = some data) :
    t.apply sink entry s = (.rewritten data, s) := by
  unfold rewrite? at h
  split at h
  · cases happly : t.apply sink entry s with
    | mk outcome s' =>
      rw [happly] at h
      obtain rfl : outcome = .rewritten data := by
        cases outcome <;> cases h
        rfl
      rw [(apply_eq_rewritten.mp happly).1]
  · cases h

end Transformer

/-- A pipeline is searched by searching the candidates that the features ask for. -/
theorem Pipeline.findSome?_ofCandidates {α : Type} (f : Transformer → Option α)
    (features : Features) (candidates : List Candidate) :
    (ofCandidates features candidates).transformers.findSome? f =
      candidates.findSome? fun c => if features.contains c.required then f c.transformer else none := by
  unfold ofCandidates
  induction candidates with
  | nil => rfl
  | cons c rest ih =>
    dsimp only at ih ⊢
    rw [List.findSome?_cons, ← ih]
    by_cases hrequired : features.contains c.required
    · rw [List.filter_cons, if_pos hrequired, List.map_cons, List.findSome?_cons, if_pos hrequired]
    · rw [List.filter_cons, if_neg hrequired, if_neg hrequired]

namespace Preset

open ClassFile Code Transformer

variable {σ : Type} {features : Features} {entry : Entry} {c : ClassFile}

/-- The first of the transformers that rewrites an entry is the one that redirects calls, if there is
one, or else the offline patch. -/
theorem findSome?_pipeline (hoffline : features.contains .offline = true) (sink : Sink σ) (s : σ)
    (path : String) :
    (pipeline features).transformers.findSome? (rewrite? sink s path entry) =
      (if features.contains .headlessCalls then rewrite? sink s path entry headlessRedirects
        else none).or (rewrite? sink s path entry offlineSession) := by
  have hheadless : rewrite? sink s path entry headlessExtraction = none := rewrite?_extract _ _ _
  have hruntime : rewrite? sink s path entry runtimeExtraction = none := rewrite?_extract _ _ _
  rw [pipeline, Pipeline.findSome?_ofCandidates]
  simp only [List.findSome?_cons, List.findSome?_nil, hheadless, hruntime, hoffline, ite_self,
    if_true]
  cases if features.contains .headlessCalls then rewrite? sink s path entry headlessRedirects
    else none with
  | some data => rfl
  | none => cases rewrite? sink s path entry offlineSession <;> rfl

/-- What a run with the offline feature leaves of the entries. -/
theorem entries_run (hoffline : features.contains .offline = true) (sink : Sink σ) (s : σ)
    (a : Artifact) :
    ((pipeline features).run sink a s).1.1.entries = a.entries.map fun entry => { entry with
      data := ((if features.contains .headlessCalls then rewrite? sink s a.path entry headlessRedirects
        else none).or (rewrite? sink s a.path entry offlineSession)).getD entry.data } := by
  rw [congrFun ((pipeline features).run_eq_hand sink s a) s]
  show a.entries.map _ = _
  simp only [findSome?_pipeline hoffline]

/-- The edit of the offline patch. -/
def offlineEdit : ClassEdit Unit :=
  MethodPatch.applyAll
    [⟨sessionService, "joinServer", none, .void⟩, ⟨userApiService, "getKeyPair", none, .null⟩]

theorem edit?_offlineSession : offlineSession.edit? = some offlineEdit := rfl

/-- In the session service, the offline patch is for the methods `joinServer`. -/
theorem offlineEdit_eq_ok {c' : ClassFile} (hclass : c.name = .ok sessionService) :
    offlineEdit c = .ok () c' ↔
      ∃ count, replaceMethods "joinServer" none .void c = .ok count c' := by
  have hother : userApiService ≠ sessionService := by decide
  have hpatches : [(⟨sessionService, "joinServer", none, .void⟩ : MethodPatch),
      ⟨userApiService, "getKeyPair", none, .null⟩].filter (·.className = sessionService) =
        [⟨sessionService, "joinServer", none, .void⟩] := by
    simp [hother]
  constructor
  · intro h
    obtain ⟨name, _, hlookup, h⟩ := Success.state_bind.mp h
    obtain ⟨hname, rfl⟩ := ClassEdit.check_eq_ok.mp hlookup
    obtain rfl := Except.ok.inj (hname.symm.trans hclass)
    rw [hpatches] at h
    obtain ⟨_, c₁, hpatch, h⟩ := Success.state_bind.mp h
    obtain ⟨-, rfl⟩ := Success.state_pure.mp h
    obtain ⟨count, c₁, hreplace, h⟩ := Success.state_bind.mp hpatch
    obtain ⟨-, rfl⟩ := Success.state_pure.mp h
    exact ⟨count, hreplace⟩
  · intro h
    obtain ⟨count, hreplace⟩ := h
    refine Success.state_bind.mpr
      ⟨sessionService, c, ClassEdit.check_eq_ok.mpr ⟨hclass, rfl⟩, ?_⟩
    rw [hpatches]
    exact Success.state_bind.mpr ⟨(), c', Success.state_bind.mpr ⟨count, c', hreplace, rfl⟩, rfl⟩

/-- The offline patch makes all methods `joinServer` of the session service return at once, if they
can. -/
theorem editStored_offlineEdit {data : List UInt8} (hparse : ClassFile.parse data = .ok c)
    (hclass : c.name = .ok sessionService)
    (hjoin : ∀ m ∈ c.methods, c.pool.getText m.nameIndex = .ok "joinServer" → c.CanReturnAtOnce m) :
    ∃ patched c', editStored data offlineEdit = .ok patched ∧
      ClassFile.parse patched = .ok c' ∧ c.SameOutside c' ∧ c'.AllReturnAtOnce "joinServer" := by
  have hsound := sound_of_parse hparse
  obtain ⟨-, -, -, hdata⟩ := ClassFile.parse_eq_ok.mp hparse
  obtain ⟨count, c', hreplace, hstorable, hreturn⟩ :=
    replaceMethods_void (storable_iff.mpr ⟨data, hdata⟩) hjoin
  have hconfined := (Confined.keeps_replaceMethods _ _ _).of_ok hreplace
  obtain ⟨patched, hpatched⟩ := storable_iff.mp hstorable
  exact ⟨patched, c', editStored_eq_ok.mpr
      ⟨c, c', hparse, (offlineEdit_eq_ok hclass).mpr ⟨count, hreplace⟩, hpatched⟩,
    (hsound.evolve hconfined.evolves).parse_eq_ok hpatched, hconfined.sameOutside hsound.named,
    hreturn⟩

/-- The offline patch fails if one of the methods cannot. -/
theorem canReturnAtOnce_of_editStored {data patched : List UInt8} {m : Member}
    (hparse : ClassFile.parse data = .ok c) (hclass : c.name = .ok sessionService)
    (h : editStored data offlineEdit = .ok patched) (hm : m ∈ c.methods)
    (hnamed : c.isNamed "joinServer" none m = true) : c.CanReturnAtOnce m := by
  obtain ⟨c₀, c', hparse₀, hedit, hpatched⟩ := editStored_eq_ok.mp h
  obtain rfl := Except.ok.inj (hparse₀.symm.trans hparse)
  obtain ⟨count, hreplace⟩ := (offlineEdit_eq_ok hclass).mp hedit
  exact canReturnAtOnce_of_replaceMethods hreplace (storable_iff.mpr ⟨patched, hpatched⟩) hm hnamed

/-- With the offline feature, whatever other features there are, every method `joinServer` of the
session service returns at once after a run, unless calls in the class were redirected. -/
theorem run_pipeline_offline {a : Artifact} {position : Nat}
    (hoffline : features.contains .offline = true)
    (hpath : (ArtifactPattern.containing "authlib").holds a.path = true)
    (hentry : a.entries[position]? = some entry)
    (hname : Entry.className? entry.name = some sessionService)
    (hparse : ClassFile.parse entry.data = .ok c) (hclass : c.name = .ok sessionService)
    (hjoin : ∀ m ∈ c.methods, c.pool.getText m.nameIndex = .ok "joinServer" → c.CanReturnAtOnce m)
    (sink : Sink σ) (s : σ) :
    ∃ data, ((pipeline features).run sink a s).1.1.entries[position]? = some { entry with data } ∧
      ((∃ c', ClassFile.parse data = .ok c' ∧ c.SameOutside c' ∧ c'.AllReturnAtOnce "joinServer") ∨
        features.contains .headlessCalls = true ∧
          headlessRedirects.apply sink entry s = (.rewritten data, s)) := by
  rw [entries_run hoffline, List.getElem?_map, hentry]
  refine ⟨_, rfl, ?_⟩
  cases hredirects : if features.contains .headlessCalls
      then rewrite? sink s a.path entry headlessRedirects else none with
  | some data =>
    right
    by_cases hcalls : features.contains .headlessCalls
    · rw [if_pos hcalls] at hredirects
      exact ⟨hcalls, apply_of_rewrite? hredirects⟩
    · rw [if_neg hcalls] at hredirects
      cases hredirects
  | none =>
    left
    obtain ⟨patched, c', hstored, hpatched, hsame, hreturn⟩ :=
      editStored_offlineEdit hparse hclass hjoin
    have hselected : offlineSession.selection.holds a.path entry.name = true := by
      simp [offlineSession, selection, Selection.holds, hpath, EntryPattern.holds, hname]
    have hdata : (rewrite? sink s a.path entry offlineSession).getD entry.data = patched := by
      rw [rewrite?, if_pos hselected]
      exact getD_newData?_apply edit?_offlineSession hstored
    rw [Option.none_or, hdata]
    exact ⟨c', hpatched, hsame, hreturn⟩

/-- A session service with a native method `joinServer`. Its pool has more constants from 5 on. -/
def nativeService (descriptor : String) (more : List Constant) (attributes : List Attribute) :
    ClassFile where
  minorVersion := 0
  majorVersion := 52
  pool := ⟨(.unusable :: .utf8 sessionService :: .classRef 1 :: .utf8 "joinServer" ::
    .utf8 descriptor :: more).toArray⟩
  access := Access.publicFlag
  thisClass := 2
  superClass := 0
  interfaces := []
  fields := []
  methods := [⟨Access.publicFlag ||| Access.nativeFlag, 3, 4, attributes⟩]
  attributes := []

/-- A session service with two methods `joinServer`, a native one and one with code. -/
def twoJoins : ClassFile :=
  { nativeService "()V" [.utf8 "Code", .utf8 "(J)V"] [] with
    methods := [⟨Access.publicFlag ||| Access.nativeFlag, 3, 4, []⟩,
      ⟨Access.publicFlag, 3, 6, [⟨5, [0, 1, 0, 3, 0, 0, 0, 3, 0x01, 0x57, 0xb1, 0, 0, 0, 0]⟩]⟩] }

/-- An entry with the stored form of a session service. -/
def sessionEntry (c : ClassFile) : Entry :=
  ⟨sessionService ++ ".class", c.toBytes.toOption.getD []⟩

theorem run_pipeline_offline_twoJoins :
    ∃ data, ((pipeline (Features.runtimeLibrary.union .offline)).run .collecting
        ⟨"libraries/Authlib-6.jar", [sessionEntry twoJoins]⟩ []).1.1.entries[0]? =
          some { sessionEntry twoJoins with data } ∧
      ∃ c', ClassFile.parse data = .ok c' ∧ twoJoins.SameOutside c' ∧
        c'.AllReturnAtOnce "joinServer" := by
  have hparse : ClassFile.parse (sessionEntry twoJoins).data = .ok twoJoins := by decide +kernel
  have hclass : twoJoins.name = .ok sessionService := by decide +kernel
  have hjoin : ∀ m ∈ twoJoins.methods, twoJoins.pool.getText m.nameIndex = .ok "joinServer" →
      twoJoins.CanReturnAtOnce m := by
    intro m hm _
    have hfind : twoJoins.pool.find? (.utf8 "Code") = some 5 := by decide +kernel
    have hroom : ConstantPool.internText "Code" twoJoins.pool = .ok 5 twoJoins.pool := by
      simp [ConstantPool.internText, ConstantPool.intern, hfind]
    simp only [twoJoins, List.mem_cons, List.not_mem_nil, or_false] at hm
    rcases hm with rfl | rfl
    · exact ⟨by decide, ⟨"()V", ⟨[], .void⟩, by decide +kernel, by decide +kernel, rfl,
        by decide +kernel⟩, 5, _, hroom, by decide +kernel⟩
    · exact ⟨by decide, ⟨"(J)V", ⟨[.long], .void⟩, by decide +kernel, by decide +kernel, rfl,
        by decide +kernel⟩, 5, _, hroom, by decide +kernel⟩
  have hoffline : (Features.runtimeLibrary.union .offline).contains .offline = true := by decide
  have hentry : [sessionEntry twoJoins][0]? = some (sessionEntry twoJoins) := rfl
  obtain ⟨data, hdata, hreturn | ⟨hcalls, -⟩⟩ :=
    run_pipeline_offline (a := ⟨"libraries/Authlib-6.jar", [sessionEntry twoJoins]⟩)
      hoffline (by decide +kernel) hentry (by decide +kernel) hparse hclass hjoin .collecting []
  · exact ⟨data, hdata, hreturn⟩
  · exact absurd hcalls (by decide)

/-! ## Where the patch is not applied -/

/-- Bytes hold a session service whose methods all decode, and whose methods `joinServer` are not
abstract and have no result. -/
structure HoldsSessionService (data : List UInt8) (c : ClassFile) : Prop where
  parses : ClassFile.parse data = .ok c
  named : c.name = .ok sessionService
  decodes : ∀ index < c.methods.length, ∃ code?, c.methodCode index = .ok code? ∧
    ∀ code ∈ code?, ∃ body, MethodBody.decode c.pool code = .ok body
  joins : ∀ m ∈ c.methods, c.pool.getText m.nameIndex = .ok "joinServer" →
    m.has Access.abstractFlag = false ∧ ∃ text descriptor,
      c.pool.getText m.descriptorIndex = .ok text ∧ MethodDescriptor.parse text = .ok descriptor ∧
      descriptor.ret = .void

/-- The entries of an artifact with nothing but a session service after a run. -/
def sessionRun (features : Features) (data : List UInt8) : List Entry :=
  ((pipeline features).run .collecting
    ⟨"authlib.jar", [⟨sessionService ++ ".class", data⟩]⟩ []).1.1.entries

/-- A run with the offline feature leaves a method `joinServer` whose code is not a bare return. -/
def Escapes (features : Features) (data : List UInt8) : Prop :=
  features.contains .offline = true ∧
    ∃ left c' index m, sessionRun features data = [⟨sessionService ++ ".class", left⟩] ∧
      ClassFile.parse left = .ok c' ∧ c'.methods[index]? = some m ∧
      c'.pool.getText m.nameIndex = .ok "joinServer" ∧
      ∀ slots, c'.methodCode index ≠ .ok (some (bareReturn slots))

/-- A session service whose method `joinServer` counts the fonts in a file. -/
def countingFonts : ClassFile :=
  { nativeService "()V" [.utf8 "Code", .utf8 "org/lwjgl/stb/STBTruetype", .classRef 6,
      .utf8 "stbtt_GetNumberOfFonts", .utf8 "(Ljava/nio/ByteBuffer;)I", .nameAndType 8 9,
      .member .method 7 10] [] with
    methods := [⟨Access.publicFlag, 3, 4,
      [⟨5, [0, 1, 0, 1, 0, 0, 0, 6, 0x01, 0xb8, 0, 11, 0x57, 0xb1, 0, 0, 0, 0]⟩]⟩] }

/-- The session service with its call redirected. -/
def countingFontsRedirected : ClassFile :=
  stateAfter (redirectCalls dispatcher Headless.keys countingFonts)

theorem holds_countingFonts :
    HoldsSessionService (sessionEntry countingFonts).data countingFonts := by
  refine ⟨by decide +kernel, by decide +kernel, ?_, ?_⟩
  · intro index hindex
    obtain rfl : index = 0 := Nat.lt_one_iff.mp hindex
    have hcode : countingFonts.methodCode 0 =
        .ok (some ⟨1, 1, [0x01, 0xb8, 0, 11, 0x57, 0xb1], [], []⟩) := by decide +kernel
    have hbody : (MethodBody.decode countingFonts.pool
        ⟨1, 1, [0x01, 0xb8, 0, 11, 0x57, 0xb1], [], []⟩).toOption.isSome := by decide +kernel
    refine ⟨_, hcode, fun code hmem => ?_⟩
    obtain rfl := Option.mem_some.mp hmem
    cases hdecode : MethodBody.decode countingFonts.pool
        ⟨1, 1, [0x01, 0xb8, 0, 11, 0x57, 0xb1], [], []⟩ with
    | ok body => exact ⟨body, rfl⟩
    | error e =>
      rw [hdecode] at hbody
      cases hbody
  · intro m hm _
    obtain rfl := List.mem_singleton.mp hm
    exact ⟨by decide, "()V", ⟨[], .void⟩, by decide +kernel, by decide +kernel, rfl⟩

/-- A class that is redirected is not handed to the offline patch. -/
theorem sessionRun_of_redirected {data left : List UInt8}
    (hstored : editStored data (redirectCalls dispatcher Headless.keys) = .ok left)
    (hne : left ≠ data) :
    sessionRun (Features.headlessCalls.union .offline) data =
      [⟨sessionService ++ ".class", left⟩] := by
  have hcalls : (Features.headlessCalls.union .offline).contains .headlessCalls = true := by decide
  have hselected : headlessRedirects.selection.holds "authlib.jar" (sessionService ++ ".class") =
      true := by decide +kernel
  have hedit : headlessRedirects.edit? = some (redirectCalls dispatcher Headless.keys) :=
    edit?_redirect.mpr ⟨rfl, rfl⟩
  have hrewrite : rewrite? Sink.collecting [] "authlib.jar" ⟨sessionService ++ ".class", data⟩
      headlessRedirects = some left := by
    rw [rewrite?, if_pos hselected, apply_eq_rewritten.mpr ⟨rfl, _, hedit, hstored, hne⟩]
    rfl
  rw [sessionRun, entries_run (by decide)]
  simp [hcalls, hrewrite]

theorem escapes_countingFonts :
    Escapes (Features.headlessCalls.union .offline) (sessionEntry countingFonts).data := by
  have hedit : redirectCalls dispatcher Headless.keys countingFonts =
      .ok () countingFontsRedirected := by
    have hok : (EStateM.run' (redirectCalls dispatcher Headless.keys) countingFonts).isSome := by
      decide +kernel
    rw [EStateM.run', EStateM.run] at hok
    unfold countingFontsRedirected
    cases hrun : redirectCalls dispatcher Headless.keys countingFonts with
    | ok u c' => rfl
    | error e c' =>
      rw [hrun] at hok
      cases hok
  have hcode : (countingFontsRedirected.methodCode 0).map (·.map (·.code.length)) =
      .ok (some 29) := by decide +kernel
  obtain ⟨left, hleft⟩ : ∃ left, countingFontsRedirected.toBytes = .ok left := by
    have hok : countingFontsRedirected.toBytes.toOption.isSome := by decide +kernel
    cases hleft : countingFontsRedirected.toBytes with
    | ok left => exact ⟨left, rfl⟩
    | error e =>
      rw [hleft] at hok
      cases hok
  have hparse := holds_countingFonts.parses
  have hconfined := (keeps_redirectCalls _ _).of_ok hedit
  have hparse' := ((sound_of_parse hparse).evolve hconfined.evolves).parse_eq_ok hleft
  have hne : left ≠ (sessionEntry countingFonts).data := by
    rintro rfl
    rw [← Except.ok.inj (hparse.symm.trans hparse')] at hcode
    exact absurd hcode (by decide +kernel)
  have hrun := sessionRun_of_redirected
    (editStored_eq_ok.mpr ⟨_, _, hparse, hedit, hleft⟩) hne
  obtain ⟨m, rest, hresembles, -, hmethods⟩ := List.forall₂_cons_left_iff.mp hconfined.methods
  have hname : countingFontsRedirected.pool.getText m.nameIndex = .ok "joinServer" := by
    rw [hresembles.nameIndex]
    exact hconfined.pool.grows.getText (by decide +kernel)
  refine ⟨by decide, left, _, 0, m, hrun, hparse', by rw [hmethods]; rfl, hname,
    fun slots hbare => ?_⟩
  rw [hbare] at hcode
  cases hcode

/-! ### Methods that cannot return at once -/

section NativeService

variable {descriptor : String} {more : List Constant} {attributes : List Attribute}

theorem getText_nativeService :
    (nativeService descriptor more attributes).pool.getText 3 = .ok "joinServer" ∧
      (nativeService descriptor more attributes).pool.getText 4 = .ok descriptor := by
  constructor <;> rw [ConstantPool.getText_eq_ok] <;> simp [nativeService]

theorem size_nativeService :
    (nativeService descriptor more attributes).pool.size = more.length + 5 :=
  List.size_toArray

theorem name_nativeService :
    (nativeService descriptor more attributes).name = .ok sessionService := by
  have hclass : (nativeService descriptor more attributes).pool.get 2 = .ok (.classRef 1) := by
    rw [ConstantPool.get_eq_ok]
    simp [nativeService]
  have htext : (nativeService descriptor more attributes).pool.getText 1 = .ok sessionService := by
    rw [ConstantPool.getText_eq_ok]
    simp [nativeService]
  unfold ClassFile.name ConstantPool.getClassName
  exact Success.except_bind.mpr ⟨_, hclass, htext⟩

/-- The session service has a stored form if it keeps within the limits of the format. -/
theorem parse_nativeService (hmore : ∀ c ∈ more, c ≠ .unusable ∧ c.isWide = false)
    (hcount : more.length ≤ 65530)
    (htexts : ∀ text, .utf8 text ∈ .utf8 descriptor :: more →
      (Text.ModifiedUtf8.encode text).length < UInt16.size)
    (hattributes : Attribute.Storable attributes) :
    ∃ data, ClassFile.parse data = .ok (nativeService descriptor more attributes) := by
  let constants : List Constant := .utf8 sessionService :: .classRef 1 :: .utf8 "joinServer" ::
    .utf8 descriptor :: more
  have hentries : (nativeService descriptor more attributes).pool.entries.toList =
      .unusable :: constants := List.toList_toArray
  have hall : ∀ c ∈ constants, c ≠ .unusable ∧ c.isWide = false := by
    simpa [constants, Constant.isWide] using hmore
  have hregular : (nativeService descriptor more attributes).pool.Regular := by
    refine ⟨constants, fun c hc => (hall c hc).1, ?_⟩
    rw [hentries]
    congr 1
    -- without wide constants, each fills one slot
    have hslots : constants.flatMap Constant.slots = constants.flatMap ([·]) :=
      List.flatMap_congr fun c hc => by simp [Constant.slots, (hall c hc).2]
    rw [hslots, List.flatMap_singleton']
  have hpool : (nativeService descriptor more attributes).pool.Storable := by
    constructor
    · rw [size_nativeService, ConstantPool.maxSize]
      omega
    · intro text htext
      rw [hentries] at htext
      simp only [constants, List.mem_cons, reduceCtorEq, false_or, Constant.utf8.injEq] at htext
      rcases htext with rfl | rfl | htext
      · decide +kernel
      · decide +kernel
      · exact htexts text (by simpa using htext)
  have hmethods : Member.Storable (nativeService descriptor more attributes).methods :=
    ⟨by simp [nativeService, UInt16.size], fun m hm => by
      obtain rfl := List.mem_singleton.mp hm
      exact hattributes⟩
  have hstorable : (nativeService descriptor more attributes).Storable :=
    ⟨hpool, by simp [nativeService, UInt16.size],
      ⟨by simp [nativeService, UInt16.size], by simp [nativeService]⟩, hmethods,
      Attribute.storable_nil⟩
  obtain ⟨data, hdata⟩ := storable_iff.mp hstorable
  have hversion : (52 : UInt16) ≤ maxMajorVersion := by decide
  exact ⟨data, ClassFile.parse_eq_ok.mpr ⟨hversion, hregular, ⟨_, name_nativeService⟩, hdata⟩⟩

theorem methodCode_nativeService
    (hcode : ∀ a ∈ attributes,
      (nativeService descriptor more attributes).pool.isText "Code" a.nameIndex = false) :
    (nativeService descriptor more attributes).methodCode 0 = .ok none := by
  have hfind : attributes.find? (fun a =>
      (nativeService descriptor more attributes).pool.isText "Code" a.nameIndex) = none :=
    List.find?_eq_none.mpr fun a ha => by simp [hcode a ha]
  unfold ConstantPool.isText at hfind
  have hmethod : (nativeService descriptor more attributes).methods[0]? =
      some ⟨Access.publicFlag ||| Access.nativeFlag, 3, 4, attributes⟩ := rfl
  unfold ClassFile.methodCode
  rw [hmethod]
  dsimp only
  rw [hfind]

theorem holds_nativeService {data : List UInt8} {d : MethodDescriptor}
    (hparse : ClassFile.parse data = .ok (nativeService descriptor more attributes))
    (hdescriptor : MethodDescriptor.parse descriptor = .ok d) (hret : d.ret = .void)
    (hcode : ∀ a ∈ attributes,
      (nativeService descriptor more attributes).pool.isText "Code" a.nameIndex = false) :
    HoldsSessionService data (nativeService descriptor more attributes) := by
  refine ⟨hparse, name_nativeService, fun index hindex => ?_, fun m hm _ => ?_⟩
  · obtain rfl : index = 0 := Nat.lt_one_iff.mp hindex
    exact ⟨none, methodCode_nativeService hcode, by simp⟩
  · obtain rfl := List.mem_singleton.mp hm
    have hconcrete : ((Access.publicFlag ||| Access.nativeFlag) &&& Access.abstractFlag != 0) = false :=
      by decide
    exact ⟨hconcrete, descriptor, d, getText_nativeService.2, hdescriptor, hret⟩

/-- If the method cannot return at once, it is left as it is. -/
theorem escapes_nativeService {data : List UInt8}
    (hparse : ClassFile.parse data = .ok (nativeService descriptor more attributes))
    (hcode : ∀ a ∈ attributes,
      (nativeService descriptor more attributes).pool.isText "Code" a.nameIndex = false)
    (hcannot : ¬(nativeService descriptor more attributes).CanReturnAtOnce
      ⟨Access.publicFlag ||| Access.nativeFlag, 3, 4, attributes⟩) :
    Escapes .offline data := by
  have hnamed : (nativeService descriptor more attributes).isNamed "joinServer" none
      ⟨Access.publicFlag ||| Access.nativeFlag, 3, 4, attributes⟩ = true :=
    isNamed_none_iff.mpr ⟨descriptor, memberNames_eq_ok.mpr getText_nativeService⟩
  have hrefused : ∀ s : List Entry, rewrite? Sink.collecting s "authlib.jar"
      ⟨sessionService ++ ".class", data⟩ offlineSession = none := by
    intro s
    cases hrewrite : rewrite? Sink.collecting s "authlib.jar"
        ⟨sessionService ++ ".class", data⟩ offlineSession with
    | none => rfl
    | some patched =>
      obtain ⟨-, edit, hedit, hstored, -⟩ := apply_eq_rewritten.mp (apply_of_rewrite? hrewrite)
      cases hedit
      exact absurd (canReturnAtOnce_of_editStored hparse name_nativeService hstored
        (List.mem_singleton.mpr rfl) hnamed) hcannot
  have hrun : sessionRun .offline data = [⟨sessionService ++ ".class", data⟩] := by
    have hcalls : Features.offline.contains .headlessCalls = false := by decide
    rw [sessionRun, entries_run (by decide)]
    simp [hrefused, hcalls]
  refine ⟨by decide, data, _, 0, _, hrun, hparse, rfl, getText_nativeService.1,
    fun slots hbare => ?_⟩
  rw [methodCode_nativeService hcode] at hbare
  cases hbare

end NativeService

/-- The descriptor of a method that has wide parameters and no result. -/
def longs (count : Nat) : MethodDescriptor := ⟨List.replicate count .long, .void⟩

theorem argumentSlots_longs (count : Nat) : (longs count).argumentSlots false = 2 * count + 1 := by
  unfold longs MethodDescriptor.argumentSlots
  induction count with
  | zero => rfl
  | succ count ih =>
    rw [List.replicate_succ, List.foldr_cons, ih, FieldType.slots]
    omega

theorem parse_longs (count : Nat) : MethodDescriptor.parse (longs count).text = .ok (longs count) := by
  apply MethodDescriptor.parse_text
  constructor
  · intro type htype
    rw [List.eq_of_mem_replicate htype]
    trivial
  · intro type htype
    cases htype

theorem length_encode_longs (count : Nat) :
    (Text.ModifiedUtf8.encode (longs count).text).length = count + 3 := by
  have hchars : (longs count).chars = '(' :: List.replicate count 'J' ++ [')', 'V'] := by
    simp [longs, MethodDescriptor.chars, ReturnType.chars, FieldType.chars, List.flatMap_replicate]
  unfold MethodDescriptor.text
  rw [Text.ModifiedUtf8.length_encode_of_ascii, String.length_ofList, hchars]
  · simp
  · rw [String.toList_ofList, hchars]
    intro c hc
    simp only [List.cons_append, List.mem_cons, List.mem_append, List.mem_replicate,
      List.not_mem_nil, or_false] at hc
    rcases hc with rfl | ⟨-, rfl⟩ | rfl | rfl <;> decide

/-- A session service with one slot too many for the arguments of `joinServer`. -/
def wideService : ClassFile := nativeService (longs 32768).text [] []

/-- A session service with a full pool, and no text for the name of code in it. -/
def fullService : ClassFile := nativeService "()V" (List.replicate 65530 (.utf8 "")) []

/-- A session service whose method `joinServer` has as many attributes as can be stored. -/
def ladenService : ClassFile := nativeService "()V" [.utf8 "Synthetic"] (List.replicate 65535 ⟨5, []⟩)

theorem escapes_wideService :
    ∃ data, HoldsSessionService data wideService ∧ Escapes .offline data := by
  have htexts : ∀ text, Constant.utf8 text ∈ [Constant.utf8 (longs 32768).text] →
      (Text.ModifiedUtf8.encode text).length < UInt16.size := by
    intro text htext
    obtain rfl := Constant.utf8.inj (List.mem_singleton.mp htext)
    rw [length_encode_longs]
    decide
  obtain ⟨data, hparse⟩ := parse_nativeService (by simp) (by simp) htexts Attribute.storable_nil
  refine ⟨data, holds_nativeService hparse (parse_longs 32768) rfl (List.forall_mem_nil _),
    escapes_nativeService hparse (List.forall_mem_nil _) fun hreturns => ?_⟩
  obtain ⟨text, d, htext, hd, -, hslots⟩ := hreturns.returns
  obtain rfl := Except.ok.inj (htext.symm.trans getText_nativeService.2)
  obtain rfl := Except.ok.inj (hd.symm.trans (parse_longs 32768))
  have hinstance : (Member.mk (Access.publicFlag ||| Access.nativeFlag) 3 4 []).isStatic = false := by
    decide
  rw [hinstance, argumentSlots_longs] at hslots
  exact absurd hslots (by decide)

theorem escapes_fullService :
    ∃ data, HoldsSessionService data fullService ∧ Escapes .offline data := by
  have hvoid : MethodDescriptor.parse "()V" = .ok ⟨[], .void⟩ := by decide +kernel
  have hmore : ∀ c ∈ List.replicate 65530 (Constant.utf8 ""), c = .utf8 "" :=
    fun c => List.eq_of_mem_replicate
  have hcount : (List.replicate 65530 (Constant.utf8 "")).length = 65530 := List.length_replicate
  unfold fullService
  generalize List.replicate 65530 (Constant.utf8 "") = more at hmore hcount ⊢
  have htexts : ∀ text, Constant.utf8 text ∈ .utf8 "()V" :: more →
      (Text.ModifiedUtf8.encode text).length < UInt16.size := by
    intro text htext
    rcases List.mem_cons.mp htext with htext | htext
    · obtain rfl := Constant.utf8.inj htext
      decide +kernel
    · obtain rfl := Constant.utf8.inj (hmore _ htext)
      decide +kernel
  obtain ⟨data, hparse⟩ := parse_nativeService
    (fun c hc => by simp [hmore c hc, Constant.isWide]) hcount.le htexts Attribute.storable_nil
  refine ⟨data, holds_nativeService hparse hvoid rfl (List.forall_mem_nil _),
    escapes_nativeService hparse (List.forall_mem_nil _) fun hreturns => ?_⟩
  obtain ⟨nameIndex, pool, hintern, -⟩ := hreturns.room
  rcases ConstantPool.mem_or_size_lt_of_internText hintern with hmem | hlt
  · rw [nativeService, List.toList_toArray] at hmem
    simp only [List.mem_cons, reduceCtorEq, false_or, Constant.utf8.injEq] at hmem
    rcases hmem with hmem | hmem | hmem | hmem
    · exact absurd hmem (by decide)
    · exact absurd hmem (by decide)
    · exact absurd hmem (by decide)
    · exact absurd (Constant.utf8.inj (hmore _ hmem)) (by decide)
  · rw [size_nativeService, hcount] at hlt
    exact absurd hlt (by decide)

theorem escapes_ladenService :
    ∃ data, HoldsSessionService data ladenService ∧ Escapes .offline data := by
  have hvoid : MethodDescriptor.parse "()V" = .ok ⟨[], .void⟩ := by decide +kernel
  have hattribute : ∀ a ∈ List.replicate 65535 (Attribute.mk 5 []), a = ⟨5, []⟩ :=
    fun a => List.eq_of_mem_replicate
  have hsynthetic : ladenService.pool.getText 5 = .ok "Synthetic" := by
    rw [ConstantPool.getText_eq_ok]
    rfl
  have hcode : ∀ a ∈ List.replicate 65535 (Attribute.mk 5 []),
      ladenService.pool.isText "Code" a.nameIndex = false := by
    intro a ha
    rw [hattribute a ha]
    exact ConstantPool.isText_eq_false (ConstantPool.isText_iff.mpr hsynthetic) (by decide)
  have htexts : ∀ text, Constant.utf8 text ∈ [Constant.utf8 "()V", .utf8 "Synthetic"] →
      (Text.ModifiedUtf8.encode text).length < UInt16.size := by
    intro text htext
    simp only [List.mem_cons, List.not_mem_nil, or_false, Constant.utf8.injEq] at htext
    rcases htext with rfl | rfl <;> decide +kernel
  have hstorable : Attribute.Storable (List.replicate 65535 (Attribute.mk 5 [])) := by
    refine ⟨?_, fun a ha => ?_⟩
    · rw [List.length_replicate]
      decide
    · rw [hattribute a ha]
      decide
  obtain ⟨data, hparse⟩ := parse_nativeService
    (by simp [Constant.isWide]) (by simp) htexts hstorable
  refine ⟨data, holds_nativeService hparse hvoid rfl hcode,
    escapes_nativeService hparse hcode fun hreturns => ?_⟩
  obtain ⟨nameIndex, pool, hintern, hroom⟩ := hreturns.room
  obtain ⟨hgrows, hyields⟩ := ConstantPool.yields_internText "Code" _ _ _ hintern
  have hlater : ∀ text ≠ "Synthetic", pool.isText text 5 = false := fun text hne =>
    ConstantPool.isText_eq_false
      (ConstantPool.isText_iff.mpr (hgrows.getText hsynthetic)) (Ne.symm hne)
  rw [Member.attributes_withBody (hyields pool (.refl pool)), List.filter_eq_self.mpr,
    length_setCode_of_not_code, List.length_replicate] at hroom
  · exact absurd hroom (by decide)
  · intro a ha
    rw [hattribute a ha]
    exact hlater "Code" (by decide)
  · intro a ha
    rw [hattribute a ha, hlater "MethodParameters" (by decide)]
    rfl

/-- The offline patch does not reach a session service whose calls are redirected, nor one in which
there is no room for it. -/
theorem run_pipeline_offline_escapes :
    (∃ data, HoldsSessionService data countingFonts ∧
      Escapes (Features.headlessCalls.union .offline) data) ∧
    (∃ data, HoldsSessionService data wideService ∧ Escapes .offline data) ∧
    (∃ data, HoldsSessionService data fullService ∧ Escapes .offline data) ∧
    ∃ data, HoldsSessionService data ladenService ∧ Escapes .offline data :=
  ⟨⟨_, holds_countingFonts, escapes_countingFonts⟩, escapes_wideService, escapes_fullService,
    escapes_ladenService⟩

end Preset

end ClassPatch
