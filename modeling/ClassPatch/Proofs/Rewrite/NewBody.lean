import Mathlib
import ClassPatch.Proofs.ClassFile.Confined
import ClassPatch.Proofs.ConstantPool.Steady

/-!
# New bodies

Replacing the body of a method is one edit of its attributes and its native flag. A later body
takes the place of an earlier one, so replacing bodies once more in the same order ends with the
same methods, also where a method was given several bodies on the way.
-/

namespace ClassPatch

open Code ConstantPool

/-! ## Code among attributes -/

/-- The attributes with the data of the first code attribute replaced, or with a new one. -/
def setCode (isCode : UInt16 → Bool) (added : Attribute) : List Attribute → List Attribute
  | [] => [added]
  | a :: rest =>
    if isCode a.nameIndex then { a with data := added.data } :: rest
    else a :: setCode isCode added rest

section SetCode

variable {isCode : UInt16 → Bool} {added : Attribute} {attributes : List Attribute}

theorem setCode_of_findIdx? : (match attributes.findIdx? fun a => isCode a.nameIndex with
      | some position => attributes.modify position fun a => { a with data := added.data }
      | none => attributes ++ [added]) = setCode isCode added attributes := by
  induction attributes with
  | nil => rfl
  | cons a rest ih =>
    rw [List.findIdx?_cons, setCode, ← ih]
    by_cases hcode : isCode a.nameIndex
    · simp [hcode]
    · cases hfind : rest.findIdx? fun a => isCode a.nameIndex with
      | none => simp [hcode]
      | some position => simp [hcode]

/-- Every attribute has the name of one from before or that of code. -/
theorem name_of_mem_setCode {a : Attribute} (h : a ∈ setCode isCode added attributes) :
    a.nameIndex = added.nameIndex ∨ ∃ b ∈ attributes, b.nameIndex = a.nameIndex := by
  induction attributes with
  | nil =>
    rw [setCode, List.mem_singleton] at h
    exact .inl (by rw [h])
  | cons b rest ih =>
    rw [setCode] at h
    by_cases hcode : isCode b.nameIndex
    · rw [if_pos hcode] at h
      rcases List.mem_cons.mp h with rfl | h
      · exact .inr ⟨b, List.mem_cons_self, rfl⟩
      · exact .inr ⟨a, List.mem_cons_of_mem b h, rfl⟩
    · rw [if_neg hcode] at h
      rcases List.mem_cons.mp h with rfl | h
      · exact .inr ⟨a, List.mem_cons_self, rfl⟩
      · refine (ih h).imp id fun hold => ?_
        obtain ⟨b', hb', hname⟩ := hold
        exact ⟨b', List.mem_cons_of_mem b hb', hname⟩

/-- The code that is set last stays. -/
theorem setCode_setCode {earlier : Attribute} (hcode : isCode added.nameIndex = true)
    (hname : earlier.nameIndex = added.nameIndex) :
    setCode isCode added (setCode isCode earlier attributes) = setCode isCode added attributes := by
  induction attributes with
  | nil => simp [setCode, hname, hcode]
  | cons a rest ih =>
    by_cases ha : isCode a.nameIndex
    · simp [setCode, ha]
    · simp [setCode, ha, ih]

/-- Attributes other than code may be taken away before or after. -/
theorem filter_setCode {keep : UInt16 → Bool} (hkeep : ∀ index, isCode index → keep index)
    (hcode : isCode added.nameIndex = true) :
    (setCode isCode added attributes).filter (fun a => keep a.nameIndex) =
      setCode isCode added (attributes.filter fun a => keep a.nameIndex) := by
  induction attributes with
  | nil => simp [setCode, hkeep _ hcode]
  | cons a rest ih =>
    by_cases ha : isCode a.nameIndex
    · simp [setCode, ha, hkeep _ ha]
    · by_cases hkept : keep a.nameIndex
      · simp [setCode, ha, hkept, ih]
      · simp [setCode, ha, hkept, ih]

end SetCode

/-! ## A method with a new body -/

namespace ConstantPool

/-- Whether an index stands for a text. -/
def isText (pool : ConstantPool) (text : String) (index : UInt16) : Bool :=
  (pool.getText index).toOption == some text

theorem isText_iff {pool : ConstantPool} {text : String} {index : UInt16} :
    pool.isText text index = true ↔ pool.getText index = .ok text := by
  unfold isText
  cases pool.getText index with
  | error e => simp [Except.toOption]
  | ok found => simp [Except.toOption]

theorem isText_congr {pool later : ConstantPool} {text : String} {index : UInt16}
    (h : later.getText index = .ok text ↔ pool.getText index = .ok text) :
    later.isText text index = pool.isText text index := by
  rw [Bool.eq_iff_iff, isText_iff, isText_iff, h]

/-- An index stands for one text at most. -/
theorem isText_eq_false {pool : ConstantPool} {text other : String} {index : UInt16}
    (h : pool.isText text index = true) (hne : text ≠ other) : pool.isText other index = false := by
  rw [isText_iff] at h
  simp [isText, h, Except.toOption, hne]

end ConstantPool

namespace Member

/-- The method with a new body: it has the code, no names of parameters, and is not native. -/
def withBody (pool : ConstantPool) (nameIndex : UInt16) (data : List UInt8) (m : Member) : Member :=
  { m with
    access := m.access &&& ~~~Access.nativeFlag
    attributes := (setCode (pool.isText "Code") ⟨nameIndex, data⟩ m.attributes).filter
      fun a => !pool.isText "MethodParameters" a.nameIndex }

variable {pool later : ConstantPool} {nameIndex : UInt16} {data earlier : List UInt8} {m : Member}

/-- The attributes for the names of parameters may be taken away before the code is set. -/
theorem attributes_withBody (hname : pool.getText nameIndex = .ok "Code") :
    (m.withBody pool nameIndex data).attributes =
      setCode (pool.isText "Code") ⟨nameIndex, data⟩
        (m.attributes.filter fun a => !pool.isText "MethodParameters" a.nameIndex) := by
  have hkeep : ∀ index, pool.isText "Code" index → !pool.isText "MethodParameters" index := by
    intro index hindex
    simp [isText_eq_false hindex (by decide : "Code" ≠ "MethodParameters")]
  exact filter_setCode hkeep (isText_iff.mpr hname)

/-- The last body stays. -/
theorem withBody_withBody (hname : pool.getText nameIndex = .ok "Code") :
    (m.withBody pool nameIndex earlier).withBody pool nameIndex data =
      m.withBody pool nameIndex data := by
  have hattributes : ((m.withBody pool nameIndex earlier).withBody pool nameIndex data).attributes =
      (m.withBody pool nameIndex data).attributes := by
    -- what is taken away the second time is gone already
    have hfilter : (m.withBody pool nameIndex earlier).attributes.filter
        (fun a => !pool.isText "MethodParameters" a.nameIndex) =
          (m.withBody pool nameIndex earlier).attributes := by
      simp [withBody]
    have hcode : pool.isText "Code" nameIndex = true := isText_iff.mpr hname
    rw [attributes_withBody hname, hfilter, attributes_withBody hname, attributes_withBody hname]
    exact setCode_setCode hcode rfl
  have haccess : ((m.withBody pool nameIndex earlier).withBody pool nameIndex data).access =
      (m.withBody pool nameIndex data).access := by
    show (m.access &&& _) &&& _ = m.access &&& _
    rw [UInt16.and_assoc, UInt16.and_self]
  exact congrArg₂ (fun access attributes => { m with access, attributes }) haccess hattributes

/-- A body may be given in a later pool, unless attributes get the name of those for parameters
there. -/
theorem withBody_grows (hgrows : pool.Grows later) (hname : pool.getText nameIndex = .ok "Code")
    (hparameters : ∀ a ∈ m.attributes, later.getText a.nameIndex = .ok "MethodParameters" →
      pool.getText a.nameIndex = .ok "MethodParameters") :
    m.withBody later nameIndex data = m.withBody pool nameIndex data := by
  have hcode : later.isText "Code" = pool.isText "Code" :=
    funext fun index => isText_congr (hgrows.getText_iff hname)
  unfold withBody
  rw [hcode]
  congr 1
  apply List.filter_congr
  intro a ha
  rw [isText_congr]
  refine ⟨fun hlater => ?_, hgrows.getText⟩
  rcases name_of_mem_setCode ha with hnew | ⟨b, hb, hsame⟩
  · rw [hnew, hgrows.getText hname] at hlater
    exact absurd (Except.ok.inj hlater) (by decide)
  · rw [← hsame] at hlater ⊢
    exact hparameters b hb hlater

/-- The same method with other attributes, whose names are those from before and that of code. -/
structure Rebodied (pool : ConstantPool) (m m' : Member) : Prop where
  resembles : m.Resembles m'
  names : ∀ a ∈ m'.attributes, pool.getText a.nameIndex = .ok "Code" ∨
    ∃ b ∈ m.attributes, b.nameIndex = a.nameIndex

theorem Rebodied.refl (pool : ConstantPool) (m : Member) : m.Rebodied pool m :=
  ⟨.refl m, fun a ha => .inr ⟨a, ha, rfl⟩⟩

theorem Rebodied.trans {m' m'' : Member} (h : m.Rebodied pool m') (h' : m'.Rebodied pool m'') :
    m.Rebodied pool m'' := by
  refine ⟨h.resembles.trans h'.resembles, fun a ha => ?_⟩
  rcases h'.names a ha with hcode | ⟨b, hb, hsame⟩
  · exact .inl hcode
  · rw [← hsame]
    exact h.names b hb

theorem rebodied_withBody (hname : pool.getText nameIndex = .ok "Code") (m : Member) :
    m.Rebodied pool (m.withBody pool nameIndex data) := by
  refine ⟨⟨?_, rfl, rfl⟩, fun a ha => ?_⟩
  · unfold withBody
    rw [UInt16.and_assoc, UInt16.and_self]
  · rcases name_of_mem_setCode (List.mem_of_mem_filter ha) with hnew | hold
    · exact .inl (hnew ▸ hname)
    · exact .inr hold

end Member

/-! ## Several bodies -/

/-- The body that the method at an index is given. -/
structure NewBody where
  index : Nat
  nameIndex : UInt16
  data : List UInt8

namespace NewBody

/-- The name of the attribute is that of code in the pool. -/
def Known (pool : ConstantPool) (b : NewBody) : Prop :=
  pool.find? (.utf8 "Code") = some b.nameIndex

/-- The methods with one of them given the body. -/
def put (pool : ConstantPool) (methods : List Member) (b : NewBody) : List Member :=
  methods.modify b.index (Member.withBody pool b.nameIndex b.data)

/-- The methods with all bodies given, in order. -/
def putAll (pool : ConstantPool) (bodies : List NewBody) (methods : List Member) : List Member :=
  bodies.foldl (put pool) methods

variable {pool : ConstantPool} {bodies : List NewBody} {methods : List Member} {b earlier : NewBody}

theorem Known.getText (h : b.Known pool) : pool.getText b.nameIndex = .ok "Code" :=
  getText_eq_ok.mpr (find?_eq_some h)

/-- The last body of a method stays. -/
theorem put_put (h : b.Known pool) (hearlier : earlier.Known pool)
    (hindex : earlier.index = b.index) : put pool (put pool methods earlier) b = put pool methods b := by
  have hname : earlier.nameIndex = b.nameIndex := Option.some.inj (hearlier.symm.trans h)
  unfold put
  rw [hindex, List.modify_modify_eq, hname]
  congr 1
  funext m
  exact Member.withBody_withBody h.getText

/-- Bodies of two methods are given independently of each other. -/
theorem put_comm (hindex : earlier.index ≠ b.index) :
    put pool (put pool methods earlier) b = put pool (put pool methods b) earlier :=
  List.modify_modify_ne _ _ _ hindex

/-- A body that is given again later makes no difference earlier. -/
theorem putAll_put_of_mem (hknown : ∀ b ∈ bodies, b.Known pool) (hb : b ∈ bodies) :
    putAll pool bodies (put pool methods b) = putAll pool bodies methods := by
  induction bodies generalizing methods with
  | nil => cases hb
  | cons first rest ih =>
    have hfirst := hknown first List.mem_cons_self
    have hrest : ∀ b ∈ rest, b.Known pool := fun b hb => hknown b (List.mem_cons_of_mem first hb)
    unfold putAll at ih ⊢
    rw [List.foldl_cons, List.foldl_cons]
    by_cases hindex : b.index = first.index
    · rw [put_put hfirst (hknown b hb) hindex]
    · -- the body is one of the rest, and can wait for the first one
      have hmem : b ∈ rest := by
        rcases List.mem_cons.mp hb with rfl | hmem
        · exact absurd rfl hindex
        · exact hmem
      rw [put_comm hindex, ih hrest hmem]

/-- Giving all bodies once more changes nothing. -/
theorem putAll_putAll (hknown : ∀ b ∈ bodies, b.Known pool) :
    putAll pool bodies (putAll pool bodies methods) = putAll pool bodies methods := by
  have hpart : ∀ part, part ⊆ bodies → ∀ methods,
      putAll pool bodies (putAll pool part methods) = putAll pool bodies methods := by
    intro part
    induction part with
    | nil =>
      intro _ methods
      rfl
    | cons b part ih =>
      intro hsubset methods
      rw [List.cons_subset] at hsubset
      show putAll pool bodies (putAll pool part (put pool methods b)) = _
      rw [ih hsubset.2, putAll_put_of_mem hknown hsubset.1]
  exact hpart bodies (List.Subset.refl bodies) methods

theorem putAll_append (more : List NewBody) :
    putAll pool (bodies ++ more) methods = putAll pool more (putAll pool bodies methods) :=
  List.foldl_append

/-- The methods are the same ones in the same order. -/
theorem rebodied_putAll (hknown : ∀ b ∈ bodies, b.Known pool) :
    List.Forall₂ (Member.Rebodied pool) methods (putAll pool bodies methods) := by
  induction bodies generalizing methods with
  | nil => exact List.forall₂_same.mpr fun m _ => .refl pool m
  | cons b bodies ih =>
    have hb := hknown b List.mem_cons_self
    have hfirst : List.Forall₂ (Member.Rebodied pool) methods (put pool methods b) :=
      forall₂_modify (.refl pool) (Member.rebodied_withBody hb.getText) methods b.index
    have hrest : List.Forall₂ (Member.Rebodied pool) (put pool methods b)
        (putAll pool bodies (put pool methods b)) :=
      ih fun b hb => hknown b (List.mem_cons_of_mem _ hb)
    exact forall₂_trans hfirst hrest fun _ _ _ _ h h' => h.trans h'

end NewBody

/-! ## Replacing one body -/

namespace ClassFile

variable {c c' : ClassFile} {index : Nat} {value : ConstantValue}

theorem putCode_eq (pool : ConstantPool) (nameIndex : UInt16) (data : List UInt8) (m : Member) :
    putCode pool nameIndex data m =
      { m with attributes := setCode (pool.isText "Code") ⟨nameIndex, data⟩ m.attributes } := by
  rw [← setCode_of_findIdx?]
  have hposition : pool.findAttribute? m.attributes "Code" =
      m.attributes.findIdx? fun a => pool.isText "Code" a.nameIndex := rfl
  unfold putCode
  rw [hposition]
  cases m.attributes.findIdx? fun a => pool.isText "Code" a.nameIndex <;> rfl

/-- Replacing a body gives the method the code that returns the value, as an attribute by the
name of code. -/
theorem replaceBody_eq_ok : replaceBody index value c = .ok () c' ↔
    ∃ r code data nameIndex grown pool, checkReplacement index value c = .ok r ∧
      constantCode value r c.pool = .ok code grown ∧ code.toBytes = .ok data ∧
      internText "Code" grown = .ok nameIndex pool ∧ index < c.methods.length ∧
      c' = { c with pool, methods := NewBody.put pool c.methods ⟨index, nameIndex, data⟩ } := by
  have hbody (pool : ConstantPool) (nameIndex : UInt16) (data : List UInt8) :
      clearFlag index Access.nativeFlag (removeMethodAttribute index "MethodParameters"
        { c with pool, methods := c.methods.modify index (putCode pool nameIndex data) }) =
      { c with pool, methods := NewBody.put pool c.methods ⟨index, nameIndex, data⟩ } := by
    unfold clearFlag removeMethodAttribute NewBody.put
    dsimp only
    rw [List.modify_modify_eq, List.modify_modify_eq, funext (putCode_eq pool nameIndex data)]
    rfl
  constructor
  · intro h
    obtain ⟨r, _, hcheck, h⟩ := Success.state_bind.mp h
    obtain ⟨hr, rfl⟩ := ClassEdit.check_eq_ok.mp hcheck
    obtain ⟨code, _, hmake, h⟩ := Success.state_bind.mp h
    obtain ⟨grown, hcode, rfl⟩ := ClassEdit.onPool_eq_ok.mp hmake
    obtain ⟨_, _, hset, h⟩ := Success.state_bind.mp h
    obtain ⟨data, nameIndex, pool, hdata, hname, hindex, rfl⟩ := setMethodCode_eq_ok.mp hset
    cases h
    exact ⟨r, code, data, nameIndex, grown, pool, hr, hcode, hdata, hname, hindex,
      hbody pool nameIndex data⟩
  · intro h
    obtain ⟨r, code, data, nameIndex, grown, pool, hr, hcode, hdata, hname, hindex, rfl⟩ := h
    rw [← hbody]
    have hset : setMethodCode index code { c with pool := grown } = .ok () _ :=
      setMethodCode_eq_ok.mpr ⟨data, nameIndex, pool, hdata, hname, hindex, rfl⟩
    unfold replaceBody
    rw [Success.state_bind_ok (ClassEdit.check_eq_ok.mpr ⟨hr, rfl⟩),
      Success.state_bind_ok (ClassEdit.onPool_eq_ok.mpr ⟨grown, hcode, rfl⟩),
      Success.state_bind_ok hset]
    rfl

end ClassFile

end ClassPatch
