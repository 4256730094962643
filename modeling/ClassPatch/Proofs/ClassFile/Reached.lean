import Mathlib
import ClassPatch.Proofs.ClassFile.Confined

/-!
# Classes that edits reach

Edits of a class keep its version and its name and leave a regular pool, also when they
fail. These are the conditions under which the stored form of a class is read back, so
whatever edits a class went through after it was made or read, its stored form, if it has
one, reads as the class itself.
-/

namespace ClassPatch

open Code ConstantPool

namespace ClassFile

/-! ## What every edit keeps -/

/-- A later state of a class. -/
structure Evolves (c later : ClassFile) : Prop where
  majorVersion : later.majorVersion = c.majorVersion
  thisClass : later.thisClass = c.thisClass
  pool : c.pool.Extends later.pool

instance : Std.Refl Evolves where
  refl c := ⟨rfl, rfl, Std.Refl.refl c.pool⟩

instance : IsTrans ClassFile Evolves where
  trans _ _ _ h h' := ⟨h'.majorVersion.trans h.majorVersion, h'.thisClass.trans h.thisClass,
    IsTrans.trans _ _ _ h.pool h'.pool⟩

/-- Only the members and attributes differ. -/
theorem evolves_of_eq {c later : ClassFile} (hversion : later.majorVersion = c.majorVersion)
    (hthis : later.thisClass = c.thisClass) (hpool : later.pool = c.pool) : c.Evolves later := by
  refine ⟨hversion, hthis, ?_⟩
  rw [hpool]
  exact Std.Refl.refl c.pool

theorem keeps_onPool {α : Type} {edit : PoolEdit α} (h : Keeps Extends edit) :
    Keeps Evolves (ClassEdit.onPool edit) := by
  intro c
  have hpool := h c.pool
  unfold ClassEdit.onPool
  cases hrun : edit c.pool <;> rw [hrun] at hpool <;> exact ⟨rfl, rfl, hpool⟩

theorem keeps_check {α : Type} (f : ClassFile → Except Error α) :
    Keeps Evolves (ClassEdit.check f) := by
  intro c
  unfold ClassEdit.check
  cases f c <;> exact Std.Refl.refl c

theorem evolves_putAttribute (c : ClassFile) (name : String) (a : Attribute) :
    c.Evolves (c.putAttribute name a) := by
  unfold putAttribute
  split <;> exact evolves_of_eq rfl rfl rfl

theorem keeps_setSignature (text : String) : Keeps Evolves (setSignature text) :=
  (keeps_onPool (keeps_internText text)).bind fun _ =>
    (keeps_onPool (keeps_internText _)).bind fun _ =>
    .modify fun c => evolves_putAttribute c _ _

theorem Confined.evolves {c later : ClassFile} (h : c.Confined later) : c.Evolves later :=
  ⟨by rw [h.frame], by rw [h.frame], h.pool⟩

theorem keeps_setMethodCode (index : Nat) (code : CodeAttribute) :
    Keeps Evolves (setMethodCode index code) :=
  (Confined.keeps_setMethodCode index code).mono fun _ _ => Confined.evolves

theorem keeps_addMethod (access : UInt16) (name descriptor : String)
    (code : Option CodeAttribute) : Keeps Evolves (addMethod access name descriptor code) := by
  refine (keeps_check _).bind fun _ => (keeps_onPool (keeps_internText name)).bind fun _ =>
    (keeps_onPool (keeps_internText descriptor)).bind fun _ => Keeps.get.bind fun _ =>
    Keeps.bind (.modify fun c => ?_) fun _ => ?_
  · exact evolves_of_eq rfl rfl rfl
  · cases code with
    | none => exact .pure _
    | some code => exact (keeps_setMethodCode _ code).bind fun _ => .pure _

theorem evolves_removeMethodAttribute (index : Nat) (name : String) (c : ClassFile) :
    c.Evolves (c.removeMethodAttribute index name) :=
  evolves_of_eq rfl rfl rfl

theorem keeps_replaceBody (index : Nat) (value : ConstantValue) :
    Keeps Evolves (replaceBody index value) :=
  (Confined.keeps_replaceBody index value).mono fun _ _ => Confined.evolves

theorem keeps_replaceMethods (name : String) (descriptor : Option String)
    (value : ConstantValue) : Keeps Evolves (replaceMethods name descriptor value) :=
  (Confined.keeps_replaceMethods name descriptor value).mono fun _ _ => Confined.evolves

theorem keeps_injectRedirects (targets : List MethodKey) (dispatcher : Dispatcher) :
    Keeps Evolves (injectRedirects targets dispatcher) :=
  (Confined.keeps_injectRedirects targets dispatcher).mono fun _ _ => Confined.evolves

/-! ## Classes that can be read back -/

/-- A class of a supported version with a regular pool that has the name of the class. -/
structure Sound (c : ClassFile) : Prop where
  supported : c.majorVersion ≤ maxMajorVersion
  regular : c.pool.Regular
  named : ∃ name, c.name = .ok name

theorem Sound.evolve {c later : ClassFile} (h : c.Sound) (hlater : c.Evolves later) :
    later.Sound := by
  refine ⟨by rw [hlater.majorVersion]; exact h.supported, hlater.pool.regular h.regular, ?_⟩
  obtain ⟨name, hname⟩ := h.named
  unfold ClassFile.name
  rw [hlater.thisClass]
  exact ⟨name, hlater.pool.grows.getClassName hname⟩

theorem sound_of_parse {data : List UInt8} {c : ClassFile} (h : parse data = .ok c) : c.Sound := by
  obtain ⟨hversion, hregular, hname, -⟩ := parse_eq_ok.mp h
  exact ⟨hversion, hregular, hname⟩

theorem Sound.parse_eq_ok {c : ClassFile} (h : c.Sound) {data : List UInt8}
    (hdata : c.toBytes = .ok data) : parse data = .ok c :=
  ClassFile.parse_eq_ok.mpr ⟨h.supported, h.regular, h.named, hdata⟩

/-- A new class is sound if its name has been added to its pool. -/
theorem sound_of_names {names : PoolEdit (UInt16 × UInt16)} (name : String)
    (hyields : names.Yields fun pool indices => pool.getClassName indices.1 = .ok name)
    (hkeeps : Keeps Extends names) {thisClass superClass access : UInt16} {pool : ConstantPool}
    (hrun : names .empty = .ok (thisClass, superClass) pool) :
    Sound { minorVersion := 0, majorVersion := 52, pool, access, thisClass, superClass,
            interfaces := [], fields := [], methods := [], attributes := [] } := by
  have hregular := (hkeeps .empty).regular regular_empty
  rw [hrun] at hregular
  have hversion : (52 : UInt16) ≤ maxMajorVersion := by decide
  exact ⟨hversion, hregular, name, (hyields _ _ _ hrun).2 pool (.refl pool)⟩

theorem sound_of_create {name : String} {superName : Option String} {c : ClassFile}
    (h : create name superName = .ok c) : c.Sound := by
  unfold create at h
  dsimp only at h
  split at h
  · rename_i thisClass superClass pool hrun
    cases h
    cases superName with
    | none =>
      refine sound_of_names name ?_ ?_ hrun
      · exact (yields_internClass name).andThen fun thisClass => .pure fun _ hname => hname
      · exact (keeps_internClass name).bind fun thisClass => .pure _
    | some superName =>
      refine sound_of_names name ?_ ?_ hrun
      · refine (yields_internClass name).andThen fun thisClass =>
          ((yields_internClass superName).map (thisClass, ·)).mono fun pool indices h hname => ?_
        obtain ⟨superClass, -, rfl⟩ := h
        exact hname
      · exact (keeps_internClass name).bind fun thisClass =>
          (keeps_internClass superName).bind fun _ => .pure _
  · cases h

/-! ## Runs of edits -/

/-- The edits of a class, with what they are given. Floating-point constants are given by
their bits. -/
inductive Operation where
  | addMethod (access : UInt16) (name descriptor : String) (code : Option CodeAttribute)
  | setMethodCode (index : Nat) (code : CodeAttribute)
  | setSignature (text : String)
  | removeMethodAttribute (index : Nat) (name : String)
  | internText (text : String)
  | internClass (name : String)
  | internString (text : String)
  | internInteger (value : Int32)
  | internFloat (bits : UInt32)
  | internLong (value : Int64)
  | internDouble (bits : UInt64)
  | internMethod (owner name descriptor : String)
  | internField (owner name descriptor : String)
  | replaceBody (index : Nat) (value : ConstantValue)
  | replaceMethods (name : String) (descriptor : Option String) (value : ConstantValue)
  | injectRedirects (targets : List MethodKey) (dispatcher : Dispatcher)

namespace Operation

/-- Carry out an operation, and leave its result aside. -/
def run : Operation → ClassEdit Unit
  | addMethod access name descriptor code => do
    let _ ← ClassFile.addMethod access name descriptor code
  | setMethodCode index code => ClassFile.setMethodCode index code
  | setSignature text => ClassFile.setSignature text
  | removeMethodAttribute index name => modify (ClassFile.removeMethodAttribute index name)
  | internText text => do let _ ← ClassEdit.onPool (ConstantPool.internText text)
  | internClass name => do let _ ← ClassEdit.onPool (ConstantPool.internClass name)
  | internString text => do let _ ← ClassEdit.onPool (ConstantPool.internString text)
  | internInteger value => do let _ ← ClassEdit.onPool (intern (.integer value))
  | internFloat bits => do let _ ← ClassEdit.onPool (intern (.float bits))
  | internLong value => do let _ ← ClassEdit.onPool (intern (.long value))
  | internDouble bits => do let _ ← ClassEdit.onPool (intern (.double bits))
  | internMethod owner name descriptor => do
    let _ ← ClassEdit.onPool (ConstantPool.internMethod owner name descriptor)
  | internField owner name descriptor => do
    let _ ← ClassEdit.onPool (ConstantPool.internField owner name descriptor)
  | replaceBody index value => ClassFile.replaceBody index value
  | replaceMethods name descriptor value => do
    let _ ← ClassFile.replaceMethods name descriptor value
  | injectRedirects targets dispatcher => do
    let _ ← ClassFile.injectRedirects targets dispatcher

theorem keeps_run (operation : Operation) : Keeps Evolves operation.run := by
  cases operation with
  | addMethod access name descriptor code =>
    exact (keeps_addMethod access name descriptor code).bind fun _ => .pure _
  | setMethodCode index code => exact keeps_setMethodCode index code
  | setSignature text => exact keeps_setSignature text
  | removeMethodAttribute index name =>
    exact .modify fun c => evolves_removeMethodAttribute index name c
  | internText text => exact (keeps_onPool (keeps_internText text)).bind fun _ => .pure _
  | internClass name => exact (keeps_onPool (keeps_internClass name)).bind fun _ => .pure _
  | internString text => exact (keeps_onPool (keeps_internString text)).bind fun _ => .pure _
  | internMethod owner name descriptor =>
    exact (keeps_onPool (keeps_internMember _ owner name descriptor)).bind fun _ => .pure _
  | internField owner name descriptor =>
    exact (keeps_onPool (keeps_internMember _ owner name descriptor)).bind fun _ => .pure _
  | replaceBody index value => exact keeps_replaceBody index value
  | replaceMethods name descriptor value =>
    exact (keeps_replaceMethods name descriptor value).bind fun _ => .pure _
  | injectRedirects targets dispatcher =>
    exact (keeps_injectRedirects targets dispatcher).bind fun _ => .pure _
  | _ => exact (keeps_onPool (keeps_intern (by simp))).bind fun _ => .pure _

end Operation

/-- The classes that are made or read and then edited any number of times, where an edit
that fails leaves what it had changed before. -/
inductive Reached : ClassFile → Prop
  | created {name : String} {superName : Option String} {c : ClassFile} :
      create name superName = .ok c → Reached c
  | parsed {data : List UInt8} {c : ClassFile} : parse data = .ok c → Reached c
  | edited {c : ClassFile} (operation : Operation) :
      Reached c → Reached (stateAfter (operation.run c))

theorem Reached.sound {c : ClassFile} (h : Reached c) : c.Sound := by
  induction h with
  | created hcreate => exact sound_of_create hcreate
  | parsed hparse => exact sound_of_parse hparse
  | edited operation _ ih => exact ih.evolve (operation.keeps_run _)

/-- If a class that was made or read and then edited has a stored form at all, the stored
form is read as that class. -/
theorem Reached.parse_of_toBytes {c : ClassFile} {data : List UInt8} (h : Reached c)
    (hdata : c.toBytes = .ok data) : parse data = .ok c :=
  h.sound.parse_eq_ok hdata

/-- A class without members. -/
def bare : ClassFile where
  minorVersion := 0
  majorVersion := 52
  pool := ⟨#[.unusable, .utf8 "A", .classRef 1]⟩
  access := 0x21
  thisClass := 2
  superClass := 0
  interfaces := []
  fields := []
  methods := []
  attributes := []

/-- A class with two methods of one name that were to return the same value. The first one
does; the edit failed at the second one, which is abstract. -/
def halfReplaced : ClassFile :=
  [Operation.addMethod 0x0001 "f" "()J" none, .addMethod 0x0401 "f" "()J" none,
    .replaceMethods "f" none (.long 7)].foldl (fun c operation => stateAfter (operation.run c)) bare

theorem Reached.parse_of_toBytes_halfReplaced :
    Reached halfReplaced ∧ ∃ data, halfReplaced.toBytes = .ok data ∧
      parse data = .ok halfReplaced := by
  have hcreate : create "A" none = .ok bare := by decide +kernel
  have hreached : Reached halfReplaced := (((Reached.created hcreate).edited _).edited _).edited _
  have hstored : halfReplaced.toBytes.isOk = true := by decide +kernel
  cases hdata : halfReplaced.toBytes with
  | error e => simp [hdata, Except.isOk, Except.toBool] at hstored
  | ok data => exact ⟨hreached, data, rfl, Reached.parse_of_toBytes hreached hdata⟩

end ClassFile

end ClassPatch
