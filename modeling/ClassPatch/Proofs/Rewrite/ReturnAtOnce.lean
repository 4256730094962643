import Mathlib
import ClassPatch.Proofs.ClassFile.Storable
import ClassPatch.Proofs.Rewrite.Contained
import ClassPatch.Proofs.Rewrite.Replay

/-!
# Methods that return at once

A method without a result can be made to return at once wherever the new body fits the format. The
edit then succeeds for all methods of a name together, the class keeps its stored form, and the
code of each of the methods is a bare return.
-/

namespace ClassPatch

open Code ConstantPool

/-! ## Code among attributes -/

section SetCode

variable {isCode : UInt16 → Bool} {added : Attribute} {attributes : List Attribute}

theorem data_of_mem_setCode {a : Attribute} (h : a ∈ setCode isCode added attributes) :
    a.data = added.data ∨ a ∈ attributes := by
  induction attributes with
  | nil =>
    rw [setCode, List.mem_singleton] at h
    exact .inl (by rw [h])
  | cons b rest ih =>
    rw [setCode] at h
    by_cases hcode : isCode b.nameIndex
    · rw [if_pos hcode] at h
      rcases List.mem_cons.mp h with rfl | h
      · exact .inl rfl
      · exact .inr (List.mem_cons_of_mem b h)
    · rw [if_neg hcode] at h
      rcases List.mem_cons.mp h with rfl | h
      · exact .inr List.mem_cons_self
      · exact (ih h).imp id (List.mem_cons_of_mem b)

/-- The number of attributes does not depend on what the code is. -/
theorem length_setCode (other : Attribute) :
    (setCode isCode added attributes).length = (setCode isCode other attributes).length := by
  induction attributes with
  | nil => rfl
  | cons a rest ih =>
    by_cases hcode : isCode a.nameIndex
    · simp [setCode, hcode]
    · simp [setCode, hcode, ih]

/-- Without code there is one attribute more. -/
theorem length_setCode_of_not_code (h : ∀ a ∈ attributes, isCode a.nameIndex = false) :
    (setCode isCode added attributes).length = attributes.length + 1 := by
  induction attributes with
  | nil => rfl
  | cons a rest ih =>
    obtain ⟨ha, hrest⟩ := List.forall_mem_cons.mp h
    simp [setCode, ha, ih hrest]

/-- The first attribute that is code has the new data. -/
theorem find?_setCode (hcode : isCode added.nameIndex = true) :
    ∃ a, (setCode isCode added attributes).find? (fun a => isCode a.nameIndex) = some a ∧
      a.data = added.data := by
  induction attributes with
  | nil => exact ⟨added, by simp [setCode, hcode], rfl⟩
  | cons a rest ih =>
    by_cases ha : isCode a.nameIndex
    · exact ⟨{ a with data := added.data }, by simp [setCode, ha], rfl⟩
    · obtain ⟨b, hb, hdata⟩ := ih
      exact ⟨b, by simp [setCode, ha, hb], hdata⟩

end SetCode

namespace Member

variable {pool : ConstantPool} {nameIndex : UInt16} {data : List UInt8} {m : Member}

theorem isNative_withBody : (m.withBody pool nameIndex data).has Access.nativeFlag = false := by
  have hclear : ~~~Access.nativeFlag &&& Access.nativeFlag = 0 := by decide
  simp [withBody, has, UInt16.and_assoc, hclear]

/-- The method with a new body keeps within the limits if its attributes fit their count. -/
theorem storable_withBody (hname : pool.getText nameIndex = .ok "Code")
    (hm : Attribute.Storable m.attributes) (hdata : data.length < UInt32.size)
    (hroom : (m.withBody pool nameIndex []).attributes.length < UInt16.size) :
    Attribute.Storable (m.withBody pool nameIndex data).attributes := by
  constructor
  · rw [attributes_withBody hname] at hroom ⊢
    rwa [length_setCode ⟨nameIndex, []⟩]
  · intro a ha
    rcases data_of_mem_setCode (List.mem_of_mem_filter ha) with hnew | hold
    · rwa [hnew]
    · exact hm.lengths a hold

end Member

/-! ## Bare returns -/

namespace Code

/-- The code of a method that returns at once. -/
def bareReturn (slots : UInt16) : CodeAttribute where
  maxStack := 0
  maxLocals := slots
  code := [Opcode.vreturn]
  exceptions := []
  attributes := []

/-- The stored form of a bare return. -/
def bareReturnBytes (slots : UInt16) : List UInt8 :=
  Bytes.BigEndian.u16 0 ++ (Bytes.BigEndian.u16 slots ++ (Bytes.BigEndian.bytes 4 1 ++
    ([Opcode.vreturn] ++ (Bytes.BigEndian.bytes 2 0 ++ ([] ++ Bytes.BigEndian.bytes 2 0)))))

theorem toBytes_bareReturn (slots : UInt16) :
    (bareReturn slots).toBytes = .ok (bareReturnBytes slots) := by
  have hnone : Attribute.listBytes [] = .ok (Bytes.BigEndian.bytes 2 0) := by decide +kernel
  have hcode : 1 < UInt32.size := by decide
  have hexceptions : 0 < UInt16.size := by decide
  exact CodeAttribute.toBytes_eq_ok.mpr ⟨hcode, hexceptions, _, hnone, rfl⟩

theorem length_bareReturnBytes_lt (slots : UInt16) :
    (bareReturnBytes slots).length < UInt32.size := by
  simp [bareReturnBytes, UInt32.size]

end Code

namespace ClassFile

variable {c c' : ClassFile} {index : Nat}

/-- The code of a method with a new body is that body. -/
theorem methodCode_withBody {code : CodeAttribute} {nameIndex : UInt16} {data : List UInt8}
    {m : Member} (hname : c.pool.getText nameIndex = .ok "Code")
    (hmethod : c.methods[index]? = some (m.withBody c.pool nameIndex data))
    (hdata : code.toBytes = .ok data) (hne : code.code ≠ []) :
    c.methodCode index = .ok (some code) := by
  obtain ⟨a, hfind, ha⟩ : ∃ a, (m.withBody c.pool nameIndex data).attributes.find?
      (fun a => c.pool.isText "Code" a.nameIndex) = some a ∧ a.data = data := by
    rw [Member.attributes_withBody hname]
    exact find?_setCode (isText_iff.mpr hname)
  have hparse := CodeAttribute.parse_eq_ok.mpr ⟨hne, hdata⟩
  unfold isText at hfind
  unfold methodCode
  rw [hmethod]
  dsimp only
  rw [hfind]
  dsimp only
  rw [ha, hparse]
  rfl

/-- Returning nothing takes a bare return, and no constants. -/
theorem constantCode_void {r : Replacement} (hret : r.descriptor.ret = .void)
    (pool : ConstantPool) :
    constantCode .void r pool = .ok (bareReturn r.argumentSlots) pool := by
  have hencode : (encode [.instruction (.simple Opcode.vreturn)]).map (·.code) =
      .ok [Opcode.vreturn] := by decide +kernel
  unfold constantCode
  rw [hret]
  show ((PoolEdit.ofExcept (encode [.instruction (.simple Opcode.vreturn)])) >>= _) pool = _
  cases hassembled : encode [.instruction (.simple Opcode.vreturn)] with
  | error e =>
    rw [hassembled] at hencode
    cases hencode
  | ok assembled =>
    rw [hassembled] at hencode
    obtain hcode : assembled.code = [Opcode.vreturn] := Except.ok.inj hencode
    show EStateM.Result.ok _ pool = _
    rw [hcode]
    rfl

/-! ## Which methods can return at once -/

theorem fits_void {ret : ReturnType} : ConstantValue.void.fits ret = true ↔ ret = .void := by
  cases ret with
  | void => simp [ConstantValue.fits]
  | value type => simp [ConstantValue.fits, ConstantValue.fitsField]

/-- The check for a body: the names of the method resolve, it is not abstract, the value fits its
result, and the slots of its arguments can be counted. -/
theorem checkReplacement_eq_ok {value : ConstantValue} {r : Replacement} :
    checkReplacement index value c = .ok r ↔ ∃ m name text, c.methods[index]? = some m ∧
      c.memberNames m = .ok (name, text) ∧ m.has Access.abstractFlag = false ∧
      MethodDescriptor.parse text = .ok r.descriptor ∧ value.fits r.descriptor.ret = true ∧
      r.descriptor.argumentSlots m.isStatic < UInt16.size ∧
      r.argumentSlots = UInt16.ofNat (r.descriptor.argumentSlots m.isStatic) := by
  unfold checkReplacement
  cases hm : c.methods[index]? with
  | none => simp [refuse]
  | some m =>
    simp only [Success.except_bind, Option.some.injEq, Prod.exists, refuse]
    constructor
    · intro h
      obtain ⟨name, text, hnames, h⟩ := h
      split_ifs at h with habstract
      obtain ⟨descriptor, hparse, h⟩ := Success.except_bind.mp h
      split_ifs at h with hfits hslots
      cases h
      exact ⟨m, name, text, rfl, hnames, by simpa using habstract, hparse, by simpa using hfits,
        Nat.not_le.mp hslots, rfl⟩
    · intro h
      obtain ⟨_, name, text, rfl, hnames, habstract, hparse, hfits, hslots, hcount⟩ := h
      refine ⟨name, text, hnames, ?_⟩
      rw [habstract]
      refine Success.except_bind.mpr ⟨r.descriptor, hparse, ?_⟩
      rw [if_neg (by simp [hfits]), if_neg (Nat.not_le.mpr hslots), ← hcount]
      rfl

/-- A method without a result that has room for a bare return: it is not abstract, the slots of its
arguments can be counted, the name of code is in the pool or can be added, and with code among its
attributes they still fit their count. -/
structure CanReturnAtOnce (c : ClassFile) (m : Member) : Prop where
  concrete : m.has Access.abstractFlag = false
  returns : ∃ text descriptor, c.pool.getText m.descriptorIndex = .ok text ∧
    MethodDescriptor.parse text = .ok descriptor ∧ descriptor.ret = .void ∧
    descriptor.argumentSlots m.isStatic < UInt16.size
  room : ∃ nameIndex pool, internText "Code" c.pool = .ok nameIndex pool ∧
    (m.withBody pool nameIndex []).attributes.length < UInt16.size

theorem memberNames_eq_ok {m : Member} {name text : String} : c.memberNames m = .ok (name, text) ↔
    c.pool.getText m.nameIndex = .ok name ∧ c.pool.getText m.descriptorIndex = .ok text := by
  unfold memberNames
  simp only [Success.except_bind, Success.except_pure, Prod.mk.injEq]
  constructor
  · intro h
    obtain ⟨_, hname, _, hdescriptor, rfl, rfl⟩ := h
    exact ⟨hname, hdescriptor⟩
  · intro h
    exact ⟨name, h.1, text, h.2, rfl, rfl⟩

theorem isNamed_none_iff {name : String} {m : Member} :
    c.isNamed name none m = true ↔ ∃ text, c.memberNames m = .ok (name, text) := by
  unfold isNamed
  cases c.memberNames m with
  | error e => simp
  | ok names =>
    obtain ⟨found, text⟩ := names
    simp

theorem mem_findMethods {name : String} {descriptor : Option String} :
    index ∈ c.findMethods name descriptor ↔
      ∃ m, c.methods[index]? = some m ∧ c.isNamed name descriptor m = true := by
  simp [findMethods, List.mk_mem_zipIdx_iff_getElem?]

theorem CanReturnAtOnce.isNamed {name : String} {m : Member} (h : c.CanReturnAtOnce m)
    (hname : c.pool.getText m.nameIndex = .ok name) : c.isNamed name none m = true := by
  obtain ⟨text, -, htext, -⟩ := h.returns
  exact isNamed_none_iff.mpr ⟨text, memberNames_eq_ok.mpr ⟨hname, htext⟩⟩

/-- A method that can return at once passes the check. -/
theorem CanReturnAtOnce.checkReplacement {name : String} {m : Member} (h : c.CanReturnAtOnce m)
    (hm : c.methods[index]? = some m) (hname : c.pool.getText m.nameIndex = .ok name) :
    ∃ r, checkReplacement index .void c = .ok r := by
  obtain ⟨text, descriptor, htext, hparse, hret, hslots⟩ := h.returns
  exact ⟨⟨descriptor, UInt16.ofNat (descriptor.argumentSlots m.isStatic)⟩,
    checkReplacement_eq_ok.mpr ⟨m, name, text, hm, memberNames_eq_ok.mpr ⟨hname, htext⟩, h.concrete,
      hparse, fits_void.mpr hret, hslots, rfl⟩⟩

/-! ## Several methods -/

variable {indices : List Nat} {nameIndex : UInt16} {pool : ConstantPool} {name : String}

/-- The methods of a class with bare returns for the bodies of those at the indices. -/
def ReturnAt (pool : ConstantPool) (nameIndex : UInt16) (indices : List Nat)
    (methods later : List Member) : Prop :=
  ∀ index m', later[index]? = some m' → ∃ m, methods[index]? = some m ∧
    (index ∉ indices ∧ m' = m ∨
      index ∈ indices ∧ ∃ slots, m' = m.withBody pool nameIndex (bareReturnBytes slots))

/-- Giving one method a bare return, and then those at the other indices. -/
theorem ReturnAt.cons {methods later : List Member} {first : Nat} {slots : UInt16}
    (hcode : pool.getText nameIndex = .ok "Code")
    (h : ReturnAt pool nameIndex indices
      (NewBody.put pool methods ⟨first, nameIndex, bareReturnBytes slots⟩) later) :
    ReturnAt pool nameIndex (first :: indices) methods later := by
  intro index m' hm'
  obtain ⟨m₁, hm₁, hcases⟩ := h index m' hm'
  rw [NewBody.put, List.getElem?_modify] at hm₁
  obtain ⟨m, hm, rfl⟩ := Option.map_eq_some_iff.mp hm₁
  refine ⟨m, hm, ?_⟩
  by_cases hindex : first = index
  · subst hindex
    rw [if_pos rfl] at hcases
    right
    rcases hcases with ⟨-, rfl⟩ | ⟨-, slots', rfl⟩
    · exact ⟨List.mem_cons_self, slots, rfl⟩
    · exact ⟨List.mem_cons_self, slots', Member.withBody_withBody hcode⟩
  · rw [if_neg hindex] at hcases
    rcases hcases with ⟨hnot, rfl⟩ | ⟨hmem, hreturns⟩
    · exact .inl ⟨by simp [Ne.symm hindex, hnot], rfl⟩
    · exact .inr ⟨List.mem_cons_of_mem first hmem, hreturns⟩

/-- Methods that can return nothing are made to, one after the other. Only the name of code is added
to the pool. -/
theorem forM_replaceBody_void (hname : internText "Code" c.pool = .ok nameIndex pool)
    (hcheck : ∀ index ∈ indices, ∃ r, checkReplacement index .void c = .ok r) :
    ∃ methods, indices.forM (replaceBody · .void) c =
        .ok () { c with pool := if indices = [] then c.pool else pool, methods } ∧
      ReturnAt pool nameIndex indices c.methods methods := by
  induction indices generalizing c with
  | nil => exact ⟨c.methods, rfl, fun index m hm => ⟨m, hm, .inl ⟨List.not_mem_nil, rfl⟩⟩⟩
  | cons first rest ih =>
    obtain ⟨⟨r, hr⟩, hrest⟩ := List.forall_mem_cons.mp hcheck
    obtain ⟨m, -, -, hm, -, -, -, hfits, -⟩ := checkReplacement_eq_ok.mp hr
    have hfirst : replaceBody first .void c = .ok () _ :=
      replaceBody_eq_ok.mpr ⟨r, bareReturn r.argumentSlots, _, nameIndex, c.pool, pool, hr,
        constantCode_void (fits_void.mp hfits) c.pool, toBytes_bareReturn _, hname,
        (List.getElem?_eq_some_iff.mp hm).1, rfl⟩
    -- the checks of the other methods pass in the class with the new body too
    have hconfined := (Confined.keeps_replaceBody first .void).of_ok hfirst
    have hagain : internText "Code" pool = .ok nameIndex pool :=
      (PoolEdit.Steady.intern (.utf8 "Code") _ _ _ hname).2 pool (.refl pool)
    obtain ⟨methods, hrun, hreturn⟩ := ih (c := { c with
        pool, methods := NewBody.put pool c.methods
          ⟨first, nameIndex, bareReturnBytes r.argumentSlots⟩ }) hagain
      fun index hindex => by
        obtain ⟨r, hr⟩ := hrest index hindex
        exact ⟨r, checkReplacement_grows hconfined.pool.grows hconfined.methods hr⟩
    have hcode : pool.getText nameIndex = .ok "Code" :=
      (yields_internText "Code" _ _ _ hname).2 pool (.refl pool)
    refine ⟨methods, ?_, hreturn.cons hcode⟩
    rw [ite_self] at hrun
    rw [if_neg (List.cons_ne_nil first rest)]
    exact Success.state_bind.mpr ⟨(), _, hfirst, hrun⟩

/-! ## All methods of a name -/

/-- Every method of the name returns at once: it is not native, and its code is a bare return. -/
def AllReturnAtOnce (c : ClassFile) (name : String) : Prop :=
  ∀ index m, c.methods[index]? = some m → c.pool.getText m.nameIndex = .ok name →
    m.has Access.nativeFlag = false ∧ ∃ slots, c.methodCode index = .ok (some (bareReturn slots))

/-- The class keeps within the limits of the format if there is room for the bodies. -/
theorem storable_of_returnAt {methods : List Member} (hstorable : c.Storable)
    (hname : internText "Code" c.pool = .ok nameIndex pool)
    (hroom : ∀ index ∈ indices, ∀ m, c.methods[index]? = some m →
      (m.withBody pool nameIndex []).attributes.length < UInt16.size)
    (hlength : methods.length = c.methods.length)
    (h : ReturnAt pool nameIndex indices c.methods methods) :
    Storable { c with pool, methods } := by
  have hcode : pool.getText nameIndex = .ok "Code" :=
    (yields_internText "Code" _ _ _ hname).2 pool (.refl pool)
  have hattributes : ∀ m' ∈ methods, Attribute.Storable m'.attributes := by
    intro m' hm'
    obtain ⟨index, hindex⟩ := List.mem_iff_getElem?.mp hm'
    obtain ⟨m, hm, hcases⟩ := h index m' hindex
    have hold := hstorable.methods.attributes m (List.mem_of_getElem? hm)
    rcases hcases with ⟨-, rfl⟩ | ⟨hmem, slots, rfl⟩
    · exact hold
    · exact Member.storable_withBody hcode hold (length_bareReturnBytes_lt slots)
        (hroom index hmem m hm)
  exact ⟨hstorable.pool.internText (by decide +kernel) hname, hstorable.interfaces,
    hstorable.fields, ⟨by rw [hlength]; exact hstorable.methods.count, hattributes⟩,
    hstorable.attributes⟩

/-- All methods of the name return at once if they are those at the indices. -/
theorem allReturnAtOnce_of_returnAt {methods : List Member}
    (hcode : pool.getText nameIndex = .ok "Code")
    (hindices : ∀ index m, c.methods[index]? = some m → pool.getText m.nameIndex = .ok name →
      index ∈ indices)
    (h : ReturnAt pool nameIndex indices c.methods methods) :
    AllReturnAtOnce { c with pool, methods } name := by
  intro index m' hm' hname
  obtain ⟨m, hm, ⟨hnot, rfl⟩ | ⟨-, slots, rfl⟩⟩ := h index m' hm'
  · exact absurd (hindices index m' hm hname) hnot
  · exact ⟨Member.isNative_withBody, slots, methodCode_withBody (c := { c with pool, methods })
      hcode hm' (toBytes_bareReturn slots) (List.cons_ne_nil _ _)⟩

/-- Methods of a name that can all return at once are made to, and the class has a stored form
again. -/
theorem replaceMethods_void_of_named (hstorable : c.Storable)
    (hmethods : ∀ m ∈ c.methods, c.pool.getText m.nameIndex = .ok name → c.CanReturnAtOnce m)
    {first : Member} (hfirst : first ∈ c.methods) (hnamed : c.isNamed name none first = true) :
    ∃ count c', replaceMethods name none .void c = .ok count c' ∧ c'.Storable ∧
      c'.AllReturnAtOnce name := by
  have hfound : ∀ index ∈ c.findMethods name none, ∃ m, c.methods[index]? = some m ∧
      c.pool.getText m.nameIndex = .ok name ∧ c.CanReturnAtOnce m := by
    intro index hindex
    obtain ⟨m, hm, hnamed⟩ := mem_findMethods.mp hindex
    obtain ⟨text, hnames⟩ := isNamed_none_iff.mp hnamed
    have hname := (memberNames_eq_ok.mp hnames).1
    exact ⟨m, hm, hname, hmethods m (List.mem_of_getElem? hm) hname⟩
  obtain ⟨known, hknown⟩ := List.mem_iff_getElem?.mp hfirst
  have hmem : known ∈ c.findMethods name none := mem_findMethods.mpr ⟨first, hknown, hnamed⟩
  obtain ⟨_, hnames⟩ := isNamed_none_iff.mp hnamed
  have hname := (memberNames_eq_ok.mp hnames).1
  obtain ⟨nameIndex, pool, hintern, -⟩ := (hmethods first hfirst hname).room
  obtain ⟨hgrows, hyields⟩ := yields_internText "Code" _ _ _ hintern
  obtain ⟨methods, hrun, hreturn⟩ := forM_replaceBody_void hintern fun index hindex => by
    obtain ⟨m, hm, hname, hreturns⟩ := hfound index hindex
    exact hreturns.checkReplacement hm hname
  rw [if_neg (List.ne_nil_of_mem hmem)] at hrun
  have hreplace : replaceMethods name none .void c =
      .ok (c.findMethods name none).length { c with pool, methods } :=
    Success.state_bind.mpr ⟨c, c, rfl, Success.state_bind.mpr ⟨(), _, hrun, rfl⟩⟩
  have hsame := ((Confined.keeps_replaceMethods _ _ _).of_ok hreplace).methods
  refine ⟨_, _, hreplace, storable_of_returnAt hstorable hintern ?_ hsame.length_eq.symm hreturn,
    allReturnAtOnce_of_returnAt (hyields pool (.refl pool)) ?_ hreturn⟩
  · intro index hindex m hm
    obtain ⟨m₀, hm₀, -, hreturns⟩ := hfound index hindex
    obtain rfl := Option.some.inj (hm.symm.trans hm₀)
    obtain ⟨_, _, hintern', hroom⟩ := hreturns.room
    obtain ⟨rfl, rfl⟩ := EStateM.Result.ok.inj (hintern.symm.trans hintern')
    exact hroom
  · -- the name was known before, so no other method has got it
    intro index m hm hlater
    have hname := (hgrows.getText_iff hname).mp hlater
    exact mem_findMethods.mpr ⟨m, hm, (hmethods m (List.mem_of_getElem? hm) hname).isNamed hname⟩

/-- If all methods of a name can return at once, they are made to, and the class has a stored form
again. -/
theorem replaceMethods_void (hstorable : c.Storable)
    (hmethods : ∀ m ∈ c.methods, c.pool.getText m.nameIndex = .ok name → c.CanReturnAtOnce m) :
    ∃ count c', replaceMethods name none .void c = .ok count c' ∧ c'.Storable ∧
      c'.AllReturnAtOnce name := by
  by_cases hsome : ∃ m ∈ c.methods, c.isNamed name none m = true
  · obtain ⟨first, hfirst, hnamed⟩ := hsome
    exact replaceMethods_void_of_named hstorable hmethods hfirst hnamed
  · have hnone : ∀ m ∈ c.methods, c.isNamed name none m = false := fun m hm =>
      Bool.eq_false_iff.mpr fun hnamed => hsome ⟨m, hm, hnamed⟩
    refine ⟨0, c, replaceMethods_of_not_named .void hnone, hstorable, fun index m hm hname => ?_⟩
    have hmem := List.mem_of_getElem? hm
    exact absurd ⟨m, hmem, (hmethods m hmem hname).isNamed hname⟩ hsome

/-! ## No other methods -/

/-- The check of a method whose names resolve does not pass later if it did not before. -/
theorem checkReplacement_back {later : ClassFile} {value : ConstantValue} {r : Replacement}
    {m : Member} {names : String × String} (hgrows : c.pool.Grows later.pool)
    (hsame : List.Forall₂ Member.Resembles c.methods later.methods)
    (hm : c.methods[index]? = some m) (hnames : c.memberNames m = .ok names)
    (h : checkReplacement index value later = .ok r) : checkReplacement index value c = .ok r := by
  obtain ⟨m', name, text, hm', hnames', habstract, hparse, hfits, hslots, hcount⟩ :=
    checkReplacement_eq_ok.mp h
  obtain ⟨_, hm₀, hresembles⟩ := exists_getElem?_of_left hsame hm
  obtain rfl := Option.some.inj (hm'.symm.trans hm₀)
  have hstatic : m'.isStatic = m.isStatic := hresembles.has_eq (by decide)
  rw [memberNames_grows hgrows hresembles hnames] at hnames'
  rw [hresembles.has_eq (by decide)] at habstract
  rw [hstatic] at hslots hcount
  exact checkReplacement_eq_ok.mpr ⟨m, name, text, hm, by rw [hnames, Except.ok.inj hnames'],
    habstract, hparse, hfits, hslots, hcount⟩

/-- If methods whose names resolve are replaced, all their checks pass before the first one is. -/
theorem checkReplacement_of_forM {value : ConstantValue}
    (h : indices.forM (replaceBody · value) c = .ok () c')
    (hnames : ∀ index ∈ indices, ∃ m names, c.methods[index]? = some m ∧
      c.memberNames m = .ok names) :
    ∀ index ∈ indices, ∃ r, checkReplacement index value c = .ok r := by
  induction indices generalizing c with
  | nil => simp
  | cons first rest ih =>
    obtain ⟨_, c₁, hfirst, hrest⟩ := Success.state_bind.mp h
    obtain ⟨r, -, -, -, -, -, hr, -⟩ := replaceBody_eq_ok.mp hfirst
    have hconfined := (Confined.keeps_replaceBody first value).of_ok hfirst
    have hlater : ∀ index ∈ rest, ∃ m names, c₁.methods[index]? = some m ∧
        c₁.memberNames m = .ok names := by
      intro index hindex
      obtain ⟨m, names, hm, hnames⟩ := hnames index (List.mem_cons_of_mem first hindex)
      obtain ⟨m₁, hm₁, hresembles⟩ := exists_getElem?_of_left hconfined.methods hm
      exact ⟨m₁, names, hm₁, memberNames_grows hconfined.pool.grows hresembles hnames⟩
    refine List.forall_mem_cons.mpr ⟨⟨r, hr⟩, fun index hindex => ?_⟩
    obtain ⟨r, hr⟩ := ih hrest hlater index hindex
    obtain ⟨m, names, hm, hnames⟩ := hnames index (List.mem_cons_of_mem first hindex)
    exact ⟨r, checkReplacement_back hconfined.pool.grows hconfined.methods hm hnames hr⟩

/-- The name of code is added with the first body. -/
theorem exists_internText_of_forM (h : indices.forM (replaceBody · .void) c = .ok () c')
    (hne : indices ≠ []) :
    ∃ nameIndex pool, internText "Code" c.pool = .ok nameIndex pool := by
  obtain ⟨first, rest, rfl⟩ := List.exists_cons_of_ne_nil hne
  obtain ⟨_, c₁, hfirst, -⟩ := Success.state_bind.mp h
  obtain ⟨r, code, data, nameIndex, grown, pool, hr, hcode, -, hintern, -⟩ :=
    replaceBody_eq_ok.mp hfirst
  obtain ⟨-, -, -, -, -, -, -, hfits, -⟩ := checkReplacement_eq_ok.mp hr
  rw [constantCode_void (fits_void.mp hfits)] at hcode
  cases hcode
  exact ⟨nameIndex, pool, hintern⟩

/-- Methods are made to return at once only if they can: if the edit succeeds and the class has a
stored form afterwards, there was room for a bare return in each of them. -/
theorem canReturnAtOnce_of_replaceMethods {count : Nat} {m : Member}
    (h : replaceMethods name none .void c = .ok count c') (hstorable : c'.Storable)
    (hm : m ∈ c.methods) (hnamed : c.isNamed name none m = true) : c.CanReturnAtOnce m := by
  obtain ⟨_, _, hget, h⟩ := Success.state_bind.mp h
  cases hget
  obtain ⟨_, c₁, hrun, h⟩ := Success.state_bind.mp h
  obtain ⟨-, rfl⟩ := Success.state_pure.mp h
  obtain ⟨index, hindex⟩ := List.mem_iff_getElem?.mp hm
  have hmem : index ∈ c.findMethods name none := mem_findMethods.mpr ⟨m, hindex, hnamed⟩
  have hcheck := checkReplacement_of_forM hrun fun index hindex => by
    obtain ⟨m, hm, hnamed⟩ := mem_findMethods.mp hindex
    obtain ⟨text, hnames⟩ := isNamed_none_iff.mp hnamed
    exact ⟨m, _, hm, hnames⟩
  obtain ⟨nameIndex, pool, hintern⟩ := exists_internText_of_forM hrun (List.ne_nil_of_mem hmem)
  obtain ⟨methods, hagain, hreturn⟩ := forM_replaceBody_void hintern hcheck
  rw [if_neg (List.ne_nil_of_mem hmem)] at hagain
  obtain ⟨-, rfl⟩ := EStateM.Result.ok.inj (hrun.symm.trans hagain)
  have hcode : pool.getText nameIndex = .ok "Code" :=
    (yields_internText "Code" _ _ _ hintern).2 pool (.refl pool)
  have hconfined := (Keeps.forM (fun index => Confined.keeps_replaceBody index .void) _).of_ok hrun
  obtain ⟨m', hm', -⟩ := exists_getElem?_of_left hconfined.methods hindex
  obtain ⟨m₀, hm₀, hcases⟩ := hreturn index m' hm'
  obtain rfl := Option.some.inj (hindex.symm.trans hm₀)
  obtain ⟨r, hr⟩ := hcheck index hmem
  obtain ⟨m₀, found, text, hm₀, hnames, habstract, hparse, hfits, hslots, -⟩ :=
    checkReplacement_eq_ok.mp hr
  obtain rfl := Option.some.inj (hindex.symm.trans hm₀)
  refine ⟨habstract, ⟨text, r.descriptor, (memberNames_eq_ok.mp hnames).2, hparse,
    fits_void.mp hfits, hslots⟩, nameIndex, pool, hintern, ?_⟩
  rcases hcases with ⟨hnot, -⟩ | ⟨-, slots, rfl⟩
  · exact absurd hmem hnot
  · have hcount := (hstorable.methods.attributes _ (List.mem_of_getElem? hm')).count
    rw [Member.attributes_withBody hcode] at hcount ⊢
    rwa [length_setCode ⟨nameIndex, bareReturnBytes slots⟩]

end ClassFile

end ClassPatch
