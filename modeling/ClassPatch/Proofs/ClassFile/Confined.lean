import Mathlib
import ClassPatch.Proofs.ClassFile.Edit
import ClassPatch.Proofs.Code.Targets
import ClassPatch.Proofs.ConstantPool.Regular

/-!
# Edits of method bodies

Giving methods other bodies, or redirecting calls in them, is confined to the attributes of
the methods: all else of the class stays, except that constants are added and that a method
with a new body is no longer native. An edit that fails is confined in the same way.
-/

namespace ClassPatch

open Code ConstantPool

/-- The same method with other attributes, which may be native in one of the two only. -/
structure Member.Resembles (m m' : Member) : Prop where
  access : m'.access &&& ~~~Access.nativeFlag = m.access &&& ~~~Access.nativeFlag
  nameIndex : m'.nameIndex = m.nameIndex
  descriptorIndex : m'.descriptorIndex = m.descriptorIndex

namespace Member.Resembles

theorem refl (m : Member) : m.Resembles m := ⟨rfl, rfl, rfl⟩

theorem trans {m m' m'' : Member} (h : m.Resembles m') (h' : m'.Resembles m'') : m.Resembles m'' :=
  ⟨h'.access.trans h.access, h'.nameIndex.trans h.nameIndex,
    h'.descriptorIndex.trans h.descriptorIndex⟩

theorem symm {m m' : Member} (h : m.Resembles m') : m'.Resembles m :=
  ⟨h.access.symm, h.nameIndex.symm, h.descriptorIndex.symm⟩

/-- Flags other than that of native methods are the same. -/
theorem has_eq {m m' : Member} {flag : UInt16} (h : m.Resembles m')
    (hflag : ~~~Access.nativeFlag &&& flag = flag) : m'.has flag = m.has flag := by
  have hand (access : UInt16) : access &&& flag = (access &&& ~~~Access.nativeFlag) &&& flag := by
    rw [UInt16.and_assoc, hflag]
  unfold has
  rw [hand, h.access, ← hand]

end Member.Resembles

namespace ClassFile

/-! ## Names of methods in later pools -/

/-- Names that resolve keep resolving to the same. -/
theorem memberNames_grows {c later : ClassFile} {m m' : Member} {names : String × String}
    (hgrows : c.pool.Grows later.pool) (hsame : m.Resembles m')
    (h : c.memberNames m = .ok names) : later.memberNames m' = .ok names := by
  obtain ⟨name, hname, hrest⟩ := Success.except_bind.mp h
  obtain ⟨descriptor, hdescriptor, hpure⟩ := Success.except_bind.mp hrest
  unfold memberNames
  rw [hsame.nameIndex, hsame.descriptorIndex, hgrows.getText hname, hgrows.getText hdescriptor]
  exact hpure

theorem isNamed_grows {c later : ClassFile} {m m' : Member} {name : String}
    {descriptor : Option String} (hgrows : c.pool.Grows later.pool) (hsame : m.Resembles m')
    (h : c.isNamed name descriptor m = true) : later.isNamed name descriptor m' = true := by
  unfold isNamed at h ⊢
  cases hnames : c.memberNames m with
  | error e =>
    rw [hnames] at h
    cases h
  | ok names =>
    rw [hnames] at h
    rwa [memberNames_grows hgrows hsame hnames]

/-! ## Confined edits -/

/-- A later state of a class in which only the pool and the attributes of methods differ, and
which methods are native. -/
structure Confined (c later : ClassFile) : Prop where
  frame : later = { c with pool := later.pool, methods := later.methods }
  pool : c.pool.Extends later.pool
  methods : List.Forall₂ Member.Resembles c.methods later.methods

namespace Confined

instance : Std.Refl Confined where
  refl c := ⟨rfl, Std.Refl.refl c.pool, List.forall₂_same.mpr fun m _ => .refl m⟩

instance : IsTrans ClassFile Confined where
  trans _ _ _ h h' := by
    refine ⟨?_, IsTrans.trans _ _ _ h.pool h'.pool, ?_⟩
    · rw [h'.frame, h.frame]
    · refine (forall₂_comp h.methods h'.methods).imp fun m m'' hm => ?_
      obtain ⟨m', hfirst, hsecond⟩ := hm
      exact hfirst.trans hsecond

/-- An edit of the attributes and the native flag of one method. -/
theorem modify {f : Member → Member} (hf : ∀ m : Member, m.Resembles (f m)) (c : ClassFile)
    (index : Nat) : c.Confined { c with methods := c.methods.modify index f } :=
  ⟨rfl, Std.Refl.refl c.pool, forall₂_modify .refl hf c.methods index⟩

theorem name_eq {c later : ClassFile} {name : String} (h : c.Confined later)
    (hname : c.name = .ok name) : later.name = .ok name := by
  have hthis : later.thisClass = c.thisClass := by rw [h.frame]
  unfold ClassFile.name at hname ⊢
  rw [hthis]
  exact h.pool.grows.getClassName hname

theorem resembles_putCode (pool : ConstantPool) (nameIndex : UInt16) (data : List UInt8)
    (m : Member) : m.Resembles (putCode pool nameIndex data m) := by
  obtain ⟨haccess, hname, hdescriptor⟩ := putCode_names pool nameIndex data m
  exact ⟨by rw [haccess], hname, hdescriptor⟩

theorem keeps_onPool {α : Type} {edit : PoolEdit α} (h : Keeps Extends edit) :
    Keeps Confined (ClassEdit.onPool edit) := by
  intro c
  have hpool := h c.pool
  have hsame := List.forall₂_same.mpr fun m (_ : m ∈ c.methods) => Member.Resembles.refl m
  unfold ClassEdit.onPool
  cases hrun : edit c.pool <;> rw [hrun] at hpool <;> exact ⟨rfl, hpool, hsame⟩

theorem keeps_check {α : Type} (f : ClassFile → Except Error α) :
    Keeps Confined (ClassEdit.check f) := by
  intro c
  unfold ClassEdit.check
  cases f c <;> exact Std.Refl.refl c

theorem keeps_setMethodCode (index : Nat) (code : CodeAttribute) :
    Keeps Confined (setMethodCode index code) := by
  refine (keeps_check _).bind fun data => (keeps_onPool (keeps_internText _)).bind fun nameIndex =>
    .getBind fun c => ?_
  by_cases hindex : index < c.methods.length
  · rw [if_pos hindex]
    exact modify (resembles_putCode c.pool nameIndex data) c index
  · rw [if_neg hindex]
    exact Std.Refl.refl c

theorem withoutAttribute (index : Nat) (name : String) (c : ClassFile) :
    c.Confined (c.removeMethodAttribute index name) := by
  apply modify
  intro m
  exact ⟨rfl, rfl, rfl⟩

theorem withoutNative (index : Nat) (c : ClassFile) :
    c.Confined (c.clearFlag index Access.nativeFlag) := by
  apply modify
  intro m
  refine ⟨?_, rfl, rfl⟩
  rw [UInt16.and_assoc, UInt16.and_self]

theorem keeps_replaceBody (index : Nat) (value : ConstantValue) :
    Keeps Confined (replaceBody index value) :=
  (keeps_check _).bind fun r => (keeps_onPool (keeps_constantCode value r)).bind fun code =>
    (keeps_setMethodCode index code).bind fun _ =>
    (Keeps.modify fun c => withoutAttribute index _ c).bind fun _ =>
    .modify fun c => withoutNative index c

theorem keeps_replaceMethods (name : String) (descriptor : Option String)
    (value : ConstantValue) : Keeps Confined (replaceMethods name descriptor value) :=
  Keeps.get.bind fun _ => (Keeps.forM (fun index => keeps_replaceBody index value) _).bind
    fun _ => .pure _

theorem keeps_redirectMethod (targets : List MethodKey) (dispatcher : Dispatcher) (index : Nat) :
    Keeps Confined (redirectMethod targets dispatcher index) := by
  refine (keeps_check _).bind fun code? => ?_
  cases code? with
  | none => exact .pure _
  | some code =>
    refine (keeps_check _).bind fun body => Keeps.get.bind fun c =>
      (keeps_onPool (Redirect.keeps_redirectNodes _ _ _ _)).bind fun rewritten => ?_
    split_ifs
    · exact .pure _
    · exact (keeps_check _).bind fun widened => (keeps_onPool widened.keeps_encode).bind
        fun code => (keeps_setMethodCode index code).bind fun _ => .pure _

theorem keeps_injectRedirects (targets : List MethodKey) (dispatcher : Dispatcher) :
    Keeps Confined (injectRedirects targets dispatcher) :=
  Keeps.get.bind fun _ => (Keeps.mapM (keeps_redirectMethod targets dispatcher) _).bind
    fun _ => .pure _

end Confined

end ClassFile

end ClassPatch
