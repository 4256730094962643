import Mathlib
import ClassPatch.ClassFile.Format
import ClassPatch.Proofs.ConstantPool.Format

/-!
# Stored classes — both directions

Attributes, members, code and whole classes: each reader accepts exactly the stored
forms of what it gives back. A class that is read is therefore written with the same
bytes, whatever its tables and payloads hold.
-/

namespace ClassPatch

open Bytes

namespace Code

/-! ## Attributes -/

namespace Attribute

theorem bytes_eq_ok {a : Attribute} {data : List UInt8} :
    a.bytes = .ok data ↔ a.data.length < UInt32.size ∧
      data = BigEndian.u16 a.nameIndex ++ (BigEndian.bytes 4 a.data.length ++ a.data) := by
  simp only [bytes, refuse]
  split
  · rename_i h
    simp [Nat.not_lt.mpr h]
  · rename_i h
    simp [Nat.not_le.mp h, eq_comm]

theorem parses_read : read.Parses fun _ a data => a.bytes = .ok data := by
  refine (Reader.Parses.u16.bind fun nameIndex => Reader.Parses.u32.bind fun length =>
    (Reader.Parses.bytes length.toNat).map (Attribute.mk nameIndex)).congr fun pos a data => ?_
  rw [bytes_eq_ok]
  constructor
  · rintro ⟨nameIndex, front, _, rfl, ⟨length, _, _, rfl, ⟨payload, ⟨hlen, rfl⟩, rfl⟩, rfl⟩, rfl⟩
    exact ⟨hlen ▸ length.toNat_lt, by rw [hlen]; rfl⟩
  · rintro ⟨hlt, rfl⟩
    have hlength : (UInt32.ofNat a.data.length).toNat = a.data.length :=
      UInt32.toNat_ofNat_of_lt' hlt
    refine ⟨a.nameIndex, _, _, rfl, ⟨UInt32.ofNat a.data.length, _, _, rfl,
      ⟨a.data, ⟨hlength.symm, rfl⟩, rfl⟩, rfl⟩, ?_⟩
    rw [BigEndian.u32, hlength]

theorem listBytes_eq_ok {attributes : List Attribute} {data : List UInt8} :
    listBytes attributes = .ok data ↔ attributes.length < UInt16.size ∧
      ∃ parts, attributes.mapM bytes = .ok parts ∧
        data = BigEndian.bytes 2 attributes.length ++ parts.flatten := by
  simp only [listBytes, refuse]
  split
  · rename_i h
    simp [Nat.not_lt.mpr h]
  · rename_i h
    simp only [Success.except_bind, Success.except_pure, Nat.not_le.mp h, true_and]

theorem parses_readList : readList.Parses fun _ attributes data =>
    listBytes attributes = .ok data := by
  refine parses_read.counted.congr fun pos attributes data => ?_
  rw [listBytes_eq_ok]
  simp only [Format.Counted, Format.sequence_eq_mapM]
  refine and_congr_right fun _ => ?_
  constructor
  · rintro ⟨body, ⟨parts, hparts, rfl⟩, rfl⟩
    exact ⟨parts, hparts, rfl⟩
  · rintro ⟨parts, hparts, rfl⟩
    exact ⟨_, ⟨parts, hparts, rfl⟩, rfl⟩

end Attribute

/-! ## Code -/

theorem ExceptionEntry.parses_read : read.Parses fun _ entry data => data = entry.bytes := by
  refine (Reader.Parses.u16.bind fun start => Reader.Parses.u16.bind fun stop =>
    Reader.Parses.u16.bind fun handler =>
      Reader.Parses.u16.map (ExceptionEntry.mk start stop handler)).congr fun pos entry data => ?_
  constructor
  · rintro ⟨start, _, _, rfl, ⟨stop, _, _, rfl, ⟨handler, _, _, rfl, ⟨catchType, rfl, rfl⟩, rfl⟩,
      rfl⟩, rfl⟩
    simp [bytes]
  · rintro rfl
    exact ⟨_, _, _, rfl, ⟨_, _, _, rfl, ⟨_, _, _, rfl, ⟨_, rfl, rfl⟩, rfl⟩, rfl⟩, by simp [bytes]⟩

namespace CodeAttribute

theorem toBytes_eq_ok {c : CodeAttribute} {data : List UInt8} :
    c.toBytes = .ok data ↔ c.code.length < UInt32.size ∧ c.exceptions.length < UInt16.size ∧
      ∃ attributes, Attribute.listBytes c.attributes = .ok attributes ∧
        data = BigEndian.u16 c.maxStack ++ (BigEndian.u16 c.maxLocals ++
          (BigEndian.bytes 4 c.code.length ++ (c.code ++
          (BigEndian.bytes 2 c.exceptions.length ++
            (c.exceptions.flatMap ExceptionEntry.bytes ++ attributes))))) := by
  simp only [toBytes, refuse]
  split
  · rename_i h
    simp [Nat.not_lt.mpr h]
  · rename_i h
    split
    · rename_i h'
      simp [Nat.not_lt.mpr h']
    · rename_i h'
      simp only [Success.except_bind, Success.except_pure, Nat.not_le.mp h, Nat.not_le.mp h',
        true_and]

/-- Reading code accepts what code that is not empty is stored as and nothing else. -/
theorem parsesAll_read : read.ParsesAll fun _ c data => c.code ≠ [] ∧ c.toBytes = .ok data := by
  refine (Reader.Parses.u16.bindAll fun maxStack => Reader.Parses.u16.bindAll fun maxLocals =>
    Reader.Parses.u32.bindAll (G := fun length _ c data => length ≠ 0 ∧ c.maxStack = maxStack ∧
      c.maxLocals = maxLocals ∧ c.code.length = length.toNat ∧ c.exceptions.length < UInt16.size ∧
      ∃ attributes, Attribute.listBytes c.attributes = .ok attributes ∧
        data = c.code ++ (BigEndian.bytes 2 c.exceptions.length ++
          (c.exceptions.flatMap ExceptionEntry.bytes ++ attributes)))
      fun length => .cases (fun hzero => ?_) fun hlength => ?_).congr fun pos c data => ?_
  · refine (Reader.ParsesAll.malformed _).congr fun pos c data => ?_
    simp [hzero]
  · refine ((Reader.Parses.bytes length.toNat).bindAll fun code =>
      ExceptionEntry.parses_read.countedAll fun exceptions =>
      Attribute.parses_readList.bindAll fun attributes => Reader.ParsesAll.atEnd _ _ ?_).congr
      fun pos c data => ?_
    · simp [Success.state_bind, Reader.malformed_ne_ok]
    · constructor
      · rintro ⟨code, _, _, ⟨hlen, rfl⟩, ⟨exceptions, _, _, ⟨hcount, _, hseq, rfl⟩,
          ⟨attributes, stored, _, hstored, ⟨rfl, rfl⟩, rfl⟩, rfl⟩, rfl⟩
        obtain rfl := Format.sequence_eq_flatMap.mp hseq
        exact ⟨hlength, rfl, rfl, hlen, hcount, stored, hstored, by simp⟩
      · rintro ⟨-, rfl, rfl, hlen, hcount, stored, hstored, rfl⟩
        exact ⟨c.code, _, _, ⟨hlen, rfl⟩, ⟨c.exceptions, _, _,
          ⟨hcount, _, Format.sequence_eq_flatMap.mpr rfl, rfl⟩, ⟨c.attributes, stored, [], hstored, ⟨rfl, rfl⟩,
            (List.append_nil _).symm⟩, rfl⟩, by simp⟩
  · rw [toBytes_eq_ok]
    constructor
    · rintro ⟨_, _, _, rfl, ⟨_, _, _, rfl, ⟨length, _, _, rfl,
        ⟨hlength, rfl, rfl, hlen, hcount, stored, hstored, rfl⟩, rfl⟩, rfl⟩, rfl⟩
      refine ⟨?_, hlen ▸ length.toNat_lt, hcount, stored, hstored, by rw [hlen]; rfl⟩
      rintro hnil
      rw [hnil, List.length_nil] at hlen
      exact hlength (UInt32.toNat_inj.mp hlen.symm)
    · rintro ⟨hcode, hlt, hcount, stored, hstored, rfl⟩
      have hlength : (UInt32.ofNat c.code.length).toNat = c.code.length :=
        UInt32.toNat_ofNat_of_lt' hlt
      refine ⟨c.maxStack, _, _, rfl, ⟨c.maxLocals, _, _, rfl, ⟨UInt32.ofNat c.code.length, _, _, rfl,
        ⟨?_, rfl, rfl, hlength.symm, hcount, stored, hstored, rfl⟩, rfl⟩, rfl⟩, ?_⟩
      · intro hzero
        rw [hzero] at hlength
        exact hcode (List.length_eq_zero_iff.mp hlength.symm)
      · rw [BigEndian.u32, hlength]

theorem parse_eq_ok {data : List UInt8} {c : CodeAttribute} :
    parse data = .ok c ↔ c.code ≠ [] ∧ c.toBytes = .ok data :=
  parsesAll_read.runOn

end CodeAttribute

end Code

open Code

/-! ## Members -/

namespace Member

theorem bytes_eq_ok {m : Member} {data : List UInt8} :
    m.bytes = .ok data ↔ ∃ attributes, Attribute.listBytes m.attributes = .ok attributes ∧
      data = BigEndian.u16 m.access ++ (BigEndian.u16 m.nameIndex ++
        (BigEndian.u16 m.descriptorIndex ++ attributes)) := by
  simp only [bytes, Success.except_bind, Success.except_pure]

theorem parses_read : read.Parses fun _ m data => m.bytes = .ok data := by
  refine (Reader.Parses.u16.bind fun access => Reader.Parses.u16.bind fun nameIndex =>
    Reader.Parses.u16.bind fun descriptorIndex => Attribute.parses_readList.map
      (Member.mk access nameIndex descriptorIndex)).congr fun pos m data => ?_
  rw [bytes_eq_ok]
  constructor
  · rintro ⟨access, _, _, rfl, ⟨nameIndex, _, _, rfl, ⟨descriptorIndex, _, _, rfl,
      ⟨attributes, hstored, rfl⟩, rfl⟩, rfl⟩, rfl⟩
    exact ⟨_, hstored, rfl⟩
  · rintro ⟨stored, hstored, rfl⟩
    exact ⟨_, _, _, rfl, ⟨_, _, _, rfl, ⟨_, _, _, rfl, ⟨_, hstored, rfl⟩, rfl⟩, rfl⟩, rfl⟩

theorem listBytes_eq_ok {fault : RewriteFault} {members : List Member} {data : List UInt8} :
    listBytes fault members = .ok data ↔ members.length < UInt16.size ∧
      ∃ parts, members.mapM bytes = .ok parts ∧
        data = BigEndian.bytes 2 members.length ++ parts.flatten := by
  simp only [listBytes, refuse]
  split
  · rename_i h
    simp [Nat.not_lt.mpr h]
  · rename_i h
    simp only [Success.except_bind, Success.except_pure, Nat.not_le.mp h, true_and]

/-- The fault of a list that is too long has no part in what a list is stored as. -/
theorem parses_readList (fault : RewriteFault) : readList.Parses fun _ members data =>
    listBytes fault members = .ok data := by
  refine parses_read.counted.congr fun pos members data => ?_
  rw [listBytes_eq_ok]
  simp only [Format.Counted, Format.sequence_eq_mapM]
  refine and_congr_right fun _ => ?_
  constructor
  · rintro ⟨body, ⟨parts, hparts, rfl⟩, rfl⟩
    exact ⟨parts, hparts, rfl⟩
  · rintro ⟨parts, hparts, rfl⟩
    exact ⟨_, ⟨parts, hparts, rfl⟩, rfl⟩

end Member

/-! ## Classes -/

namespace ClassFile

theorem interfaceBytes_eq_ok {interfaces : List UInt16} {data : List UInt8} :
    interfaceBytes interfaces = .ok data ↔ interfaces.length < UInt16.size ∧
      data = BigEndian.bytes 2 interfaces.length ++ interfaces.flatMap BigEndian.u16 := by
  simp only [interfaceBytes, refuse]
  split
  · rename_i h
    simp [Nat.not_lt.mpr h]
  · rename_i h
    simp [Nat.not_le.mp h, eq_comm]

theorem toBytes_eq_ok {c : ClassFile} {data : List UInt8} :
    c.toBytes = .ok data ↔ ∃ pool interfaces fields methods attributes,
      c.pool.bytes = .ok pool ∧ interfaceBytes c.interfaces = .ok interfaces ∧
      Member.listBytes .tooManyFields c.fields = .ok fields ∧
      Member.listBytes .tooManyMethods c.methods = .ok methods ∧
      Attribute.listBytes c.attributes = .ok attributes ∧
      data = BigEndian.u32 magic ++ (BigEndian.u16 c.minorVersion ++
        (BigEndian.u16 c.majorVersion ++ (pool ++ (BigEndian.u16 c.access ++
        (BigEndian.u16 c.thisClass ++ (BigEndian.u16 c.superClass ++
        (interfaces ++ (fields ++ (methods ++ attributes))))))))) := by
  simp only [toBytes, Success.except_bind, Success.except_pure, exists_and_left]

/-- Reading a class accepts what a class of a supported version with a regular pool is
stored as and nothing else. -/
theorem parsesAll_read : read.ParsesAll fun _ c data =>
    c.majorVersion ≤ maxMajorVersion ∧ c.pool.Regular ∧ c.toBytes = .ok data := by
  refine (Reader.Parses.u32.bindAll fun mark => .guard <|
    Reader.Parses.u16.bindAll fun minorVersion => Reader.Parses.u16.bindAll fun majorVersion =>
    .guard <| ConstantPool.parses_read.bindAll fun pool => Reader.Parses.u16.bindAll fun access =>
    Reader.Parses.u16.bindAll fun thisClass => Reader.Parses.u16.bindAll fun superClass =>
    Reader.Parses.u16.countedAll fun interfaces =>
    (Member.parses_readList .tooManyFields).bindAll fun fields =>
    (Member.parses_readList .tooManyMethods).bindAll fun methods =>
    Attribute.parses_readList.bindAll fun attributes => Reader.ParsesAll.atEnd _ _ ?_).congr
    fun pos c data => ?_
  · simp [Success.state_bind, Reader.malformed_ne_ok]
  rw [toBytes_eq_ok]
  constructor
  · rintro ⟨mark, _, _, rfl, ⟨hmark, minorVersion, _, _, rfl, ⟨majorVersion, _, _, rfl, ⟨hversion,
      pool, _, _, ⟨hregular, hpool⟩, ⟨access, _, _, rfl, ⟨thisClass, _, _, rfl, ⟨superClass, _, _, rfl,
      ⟨interfaces, _, _, ⟨hcount, _, hinterfaces, rfl⟩, ⟨fields, _, _, hfields,
      ⟨methods, _, _, hmethods, ⟨attributes, _, _, hattributes, ⟨rfl, rfl⟩, rfl⟩, rfl⟩, rfl⟩,
      rfl⟩, rfl⟩, rfl⟩, rfl⟩, rfl⟩, rfl⟩, rfl⟩, rfl⟩
    obtain rfl := Format.sequence_eq_flatMap.mp hinterfaces
    obtain rfl := not_not.mp hmark
    exact ⟨UInt16.not_lt.mp hversion, hregular, _, _, _, _, _, hpool,
      interfaceBytes_eq_ok.mpr ⟨hcount, rfl⟩, hfields, hmethods, hattributes, by simp⟩
  · rintro ⟨hversion, hregular, _, _, _, _, _, hpool, hinterfaces, hfields, hmethods, hattributes,
      rfl⟩
    obtain ⟨hcount, rfl⟩ := interfaceBytes_eq_ok.mp hinterfaces
    exact ⟨magic, _, _, rfl, ⟨not_not.mpr rfl, _, _, _, rfl, ⟨_, _, _, rfl,
      ⟨UInt16.not_lt.mpr hversion, _, _, _, ⟨hregular, hpool⟩, ⟨_, _, _, rfl, ⟨_, _, _, rfl,
      ⟨_, _, _, rfl, ⟨_, _, _, ⟨hcount, _, Format.sequence_eq_flatMap.mpr rfl, rfl⟩,
      ⟨_, _, _, hfields, ⟨_, _, _, hmethods, ⟨_, _, [], hattributes, ⟨rfl, rfl⟩,
      (List.append_nil _).symm⟩, rfl⟩, rfl⟩, rfl⟩, rfl⟩, rfl⟩, rfl⟩, rfl⟩, rfl⟩, rfl⟩, rfl⟩

theorem parse_eq_ok {data : List UInt8} {c : ClassFile} :
    parse data = .ok c ↔ c.majorVersion ≤ maxMajorVersion ∧ c.pool.Regular ∧
      (∃ name, c.name = .ok name) ∧ c.toBytes = .ok data := by
  have hempty : c.toBytes = .ok data → data.isEmpty = false := by
    intro h
    obtain ⟨_, _, _, _, _, -, -, -, -, -, rfl⟩ := toBytes_eq_ok.mp h
    rfl
  unfold parse
  cases hdata : data.isEmpty with
  | true =>
    simp only [if_true, reduceCtorEq, false_iff]
    rintro ⟨-, -, -, hbytes⟩
    rw [hempty hbytes] at hdata
    contradiction
  | false =>
    simp only [Bool.false_eq_true, if_false, Success.except_bind, Success.except_pure]
    constructor
    · rintro ⟨c', hread, name, hname, rfl⟩
      obtain ⟨hversion, hregular, hbytes⟩ := parsesAll_read.runOn.mp hread
      exact ⟨hversion, hregular, ⟨name, hname⟩, hbytes⟩
    · rintro ⟨hversion, hregular, ⟨name, hname⟩, hbytes⟩
      exact ⟨c, parsesAll_read.runOn.mpr ⟨hversion, hregular, hbytes⟩, name, hname, rfl⟩

end ClassFile

/-! ## The round trip -/

/-- What is read is stored as the bytes it was read from, for whole classes and for the code of
methods, and every stored form that is well-formed is read back. -/
theorem parse_eq_ok_iff_toBytes :
    (∀ (data : List UInt8) (c : ClassFile), ClassFile.parse data = .ok c ↔
      c.toBytes = .ok data ∧ c.majorVersion ≤ ClassFile.maxMajorVersion ∧ c.pool.Regular ∧
        ∃ name, c.name = .ok name) ∧
    (∀ (data : List UInt8) (code : CodeAttribute), CodeAttribute.parse data = .ok code ↔
      code.toBytes = .ok data ∧ code.code ≠ []) := by
  constructor
  · intro data c
    rw [ClassFile.parse_eq_ok]
    tauto
  · intro data code
    rw [CodeAttribute.parse_eq_ok, and_comm]

end ClassPatch
