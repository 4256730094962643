import Mathlib
import ClassPatch.Proofs.ClassFile.Format
import ClassPatch.Proofs.ConstantPool.Intern
import ClassPatch.Proofs.Success

/-!
# Classes that have a stored form

A class has a stored form exactly when every count and every length of it fits the bytes that the
format has for it. What an edit leaves is stored again if the edit keeps within these limits.
-/

namespace ClassPatch

open Code Text

/-- The attributes fit their count, and each fits the length before it. -/
structure Code.Attribute.Storable (attributes : List Attribute) : Prop where
  count : attributes.length < UInt16.size
  lengths : ∀ a ∈ attributes, a.data.length < UInt32.size

theorem Code.Attribute.storable_nil : Storable [] := ⟨by decide, by simp⟩

theorem Code.Attribute.storable_iff {attributes : List Attribute} :
    Storable attributes ↔ ∃ data, listBytes attributes = .ok data := by
  constructor
  · intro h
    obtain ⟨parts, hparts⟩ := Success.exists_except_mapM.mpr fun a ha =>
      ⟨_, bytes_eq_ok.mpr ⟨h.lengths a ha, rfl⟩⟩
    exact ⟨_, listBytes_eq_ok.mpr ⟨h.count, parts, hparts, rfl⟩⟩
  · intro h
    obtain ⟨data, hdata⟩ := h
    obtain ⟨hcount, parts, hparts, -⟩ := listBytes_eq_ok.mp hdata
    refine ⟨hcount, fun a ha => ?_⟩
    obtain ⟨part, hpart⟩ := Success.exists_except_mapM.mp ⟨parts, hparts⟩ a ha
    exact (bytes_eq_ok.mp hpart).1

/-- The members fit their count, and so do the attributes of each. -/
structure Member.Storable (members : List Member) : Prop where
  count : members.length < UInt16.size
  attributes : ∀ m ∈ members, Attribute.Storable m.attributes

theorem Member.storable_iff {members : List Member} {fault : RewriteFault} :
    Storable members ↔ ∃ data, listBytes fault members = .ok data := by
  constructor
  · intro h
    obtain ⟨parts, hparts⟩ := Success.exists_except_mapM.mpr fun m hm => by
      obtain ⟨data, hdata⟩ := Attribute.storable_iff.mp (h.attributes m hm)
      exact ⟨_, bytes_eq_ok.mpr ⟨data, hdata, rfl⟩⟩
    exact ⟨_, listBytes_eq_ok.mpr ⟨h.count, parts, hparts, rfl⟩⟩
  · intro h
    obtain ⟨data, hdata⟩ := h
    obtain ⟨hcount, parts, hparts, -⟩ := listBytes_eq_ok.mp hdata
    refine ⟨hcount, fun m hm => ?_⟩
    obtain ⟨part, hpart⟩ := Success.exists_except_mapM.mp ⟨parts, hparts⟩ m hm
    obtain ⟨attributes, hattributes, -⟩ := bytes_eq_ok.mp hpart
    exact Attribute.storable_iff.mpr ⟨attributes, hattributes⟩

namespace ConstantPool

/-- The pool fits its count, and each of its texts fits the length before it. -/
structure Storable (pool : ConstantPool) : Prop where
  count : pool.size ≤ maxSize
  texts : ∀ text, .utf8 text ∈ pool.entries.toList → (ModifiedUtf8.encode text).length < UInt16.size

/-- Only a text may be too long for a stored form. -/
theorem exists_bytes_iff {c : Constant} : (∃ data, c.bytes = .ok data) ↔
    ∀ text, c = .utf8 text → (ModifiedUtf8.encode text).length < UInt16.size := by
  cases c with
  | utf8 text =>
    simp only [Constant.bytes, Constant.utf8.injEq, forall_eq']
    constructor
    · intro h
      obtain ⟨data, hdata⟩ := h
      exact (Constant.textBytes_eq_ok.mp hdata).1
    · intro h
      exact ⟨_, Constant.textBytes_eq_ok.mpr ⟨h, rfl⟩⟩
  | _ => simp [Constant.bytes]

theorem storable_iff {pool : ConstantPool} : pool.Storable ↔ ∃ data, pool.bytes = .ok data := by
  constructor
  · intro h
    obtain ⟨parts, hparts⟩ := Success.exists_except_mapM.mpr fun c hc =>
      exists_bytes_iff.mpr fun text htext => h.texts text (htext ▸ hc)
    exact ⟨_, bytes_eq_ok.mpr ⟨h.count, parts, hparts, rfl⟩⟩
  · intro h
    obtain ⟨data, hdata⟩ := h
    obtain ⟨hcount, parts, hparts, -⟩ := bytes_eq_ok.mp hdata
    refine ⟨hcount, fun text htext => ?_⟩
    exact exists_bytes_iff.mp (Success.exists_except_mapM.mp ⟨parts, hparts⟩ _ htext) text rfl

/-- A text that is not too long may be added. -/
theorem Storable.internText {pool later : ConstantPool} {text : String} {index : UInt16}
    (h : pool.Storable) (htext : (ModifiedUtf8.encode text).length < UInt16.size)
    (hintern : internText text pool = .ok index later) : later.Storable := by
  have hcases := interned_intern (.utf8 text) pool
  rw [show intern (.utf8 text) pool = _ from hintern] at hcases
  cases hcases with
  | found _ => exact h
  | added _ _ hgrown =>
    refine ⟨hgrown, fun other hother => ?_⟩
    rw [push, Array.toList_appendList] at hother
    rcases List.mem_append.mp hother with hold | hnew
    · exact h.texts other hold
    · obtain rfl : other = text := by simpa [Constant.slots, Constant.isWide] using hnew
      exact htext

/-- A text is added only where it fits. -/
theorem mem_or_size_lt_of_internText {pool later : ConstantPool} {text : String} {index : UInt16}
    (h : ConstantPool.internText text pool = .ok index later) :
    .utf8 text ∈ pool.entries.toList ∨ pool.size < maxSize := by
  have hcases := interned_intern (.utf8 text) pool
  rw [show intern (.utf8 text) pool = _ from h] at hcases
  cases hcases with
  | found hfind =>
    have hentry := find?_eq_some hfind
    rw [← Array.getElem?_toList] at hentry
    exact .inl (List.mem_of_getElem? hentry)
  | added _ _ hgrown =>
    have hsize := size_lt_size_push pool (.utf8 text)
    exact .inr (hsize.trans_le hgrown)

end ConstantPool

namespace ClassFile

/-- The limits that the format sets to a class. -/
structure Storable (c : ClassFile) : Prop where
  pool : c.pool.Storable
  interfaces : c.interfaces.length < UInt16.size
  fields : Member.Storable c.fields
  methods : Member.Storable c.methods
  attributes : Attribute.Storable c.attributes

/-- A class has a stored form exactly when it keeps within the limits. -/
theorem storable_iff {c : ClassFile} : c.Storable ↔ ∃ data, c.toBytes = .ok data := by
  constructor
  · intro h
    obtain ⟨pool, hpool⟩ := ConstantPool.storable_iff.mp h.pool
    obtain ⟨fields, hfields⟩ := Member.storable_iff.mp h.fields
    obtain ⟨methods, hmethods⟩ := Member.storable_iff.mp h.methods
    obtain ⟨attributes, hattributes⟩ := Attribute.storable_iff.mp h.attributes
    exact ⟨_, toBytes_eq_ok.mpr ⟨pool, _, fields, methods, attributes, hpool,
      interfaceBytes_eq_ok.mpr ⟨h.interfaces, rfl⟩, hfields, hmethods, hattributes, rfl⟩⟩
  · intro h
    obtain ⟨data, hdata⟩ := h
    obtain ⟨pool, interfaces, fields, methods, attributes, hpool, hinterfaces, hfields, hmethods,
      hattributes, -⟩ := toBytes_eq_ok.mp hdata
    exact ⟨ConstantPool.storable_iff.mpr ⟨pool, hpool⟩, (interfaceBytes_eq_ok.mp hinterfaces).1,
      Member.storable_iff.mpr ⟨fields, hfields⟩, Member.storable_iff.mpr ⟨methods, hmethods⟩,
      Attribute.storable_iff.mpr ⟨attributes, hattributes⟩⟩

end ClassFile

end ClassPatch
