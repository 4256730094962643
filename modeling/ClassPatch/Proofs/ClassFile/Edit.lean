import Mathlib
import ClassPatch.ClassFile.Edit
import ClassPatch.ClassFile.Format
import ClassPatch.Proofs.ClassFile.Format
import ClassPatch.Proofs.ConstantPool.Intern

/-!
# Edits of classes

What the steps of an edit do, and that the code which a method is given is the code that
it then has. Which attribute holds the code of a method does not change while the pool
grows, as a text that is there already is not added again.
-/

namespace ClassPatch

open Bytes Code

namespace ClassEdit

theorem onPool_eq_ok {α : Type} {edit : PoolEdit α} {c c' : ClassFile} {a : α} :
    onPool edit c = .ok a c' ↔ ∃ pool, edit c.pool = .ok a pool ∧ c' = { c with pool } := by
  unfold onPool
  cases edit c.pool with
  | ok b pool => simp [eq_comm]
  | error e pool => simp

theorem check_eq_ok {α : Type} {f : ClassFile → Except Error α} {c c' : ClassFile} {a : α} :
    check f c = .ok a c' ↔ f c = .ok a ∧ c = c' := by
  unfold check
  cases f c with
  | ok b => simp [eq_comm]
  | error e => simp

end ClassEdit

/-- The same indices stand for the name of code attributes. -/
def SameCodeName (pool later : ConstantPool) : Prop :=
  ∀ index, later.getText index = .ok "Code" ↔ pool.getText index = .ok "Code"

theorem SameCodeName.refl (pool : ConstantPool) : SameCodeName pool pool := fun _ => Iff.rfl

theorem SameCodeName.trans {p₁ p₂ p₃ : ConstantPool} (h : SameCodeName p₁ p₂)
    (h' : SameCodeName p₂ p₃) : SameCodeName p₁ p₃ :=
  fun index => (h' index).trans (h index)

theorem SameCodeName.isCode {pool later : ConstantPool} (h : SameCodeName pool later)
    (a : Attribute) : ((later.getText a.nameIndex).toOption == some "Code") =
      ((pool.getText a.nameIndex).toOption == some "Code") := by
  have hiff {p : ConstantPool} : ((p.getText a.nameIndex).toOption == some "Code") = true ↔
      p.getText a.nameIndex = .ok "Code" := by
    cases p.getText a.nameIndex with
    | error e => simp [Except.toOption]
    | ok text => simp [Except.toOption]
  rw [Bool.eq_iff_iff, hiff, hiff]
  exact h a.nameIndex

namespace ClassFile

variable {c c' : ClassFile} {index : Nat}

theorem methodCode_congr (hname : SameCodeName c.pool c'.pool)
    (hmethod : c'.methods[index]? = c.methods[index]?) :
    c'.methodCode index = c.methodCode index := by
  unfold methodCode
  rw [hmethod, funext hname.isCode]

theorem find?_modify {α : Type} {p : α → Bool} {f : α → α} (hf : ∀ a, p (f a) = p a)
    {as : List α} {position : Nat} (h : as.findIdx? p = some position) :
    (as.modify position f).find? p = (as.find? p).map f := by
  induction as generalizing position with
  | nil => cases h
  | cons a as ih =>
    rw [List.findIdx?_cons] at h
    cases ha : p a with
    | true =>
      rw [ha] at h
      cases h
      rw [List.modify_zero_cons, List.find?_cons_of_pos (by rw [hf, ha]), List.find?_cons_of_pos ha]
      rfl
    | false =>
      rw [ha] at h
      obtain ⟨position, hposition, rfl⟩ := Option.map_eq_some_iff.mp h
      rw [List.modify_succ_cons, List.find?_cons_of_neg (by simp [ha]),
        List.find?_cons_of_neg (by simp [ha]), ih hposition]

/-- A method that has code is given other code in its place. -/
theorem methodCode_putCode {code new : CodeAttribute} {data : List UInt8} {nameIndex : UInt16}
    (hcode : c.methodCode index = .ok (some code)) (hname : SameCodeName c.pool c'.pool)
    (hmethods : c'.methods = c.methods.modify index (putCode c'.pool nameIndex data))
    (hdata : new.toBytes = .ok data) (hne : new.code ≠ []) :
    c'.methodCode index = .ok (some new) := by
  unfold methodCode at hcode ⊢
  cases hm : c.methods[index]? with
  | none =>
    rw [hm] at hcode
    cases hcode
  | some m =>
    rw [hm] at hcode
    dsimp only at hcode
    cases hfind : m.attributes.find? fun a => (c.pool.getText a.nameIndex).toOption == some "Code" with
    | none =>
      rw [hfind] at hcode
      cases hcode
    | some a =>
      rw [← funext hname.isCode] at hfind
      have hmethod : c'.methods[index]? = some (putCode c'.pool nameIndex data m) := by
        rw [hmethods, List.getElem?_modify_eq, hm]
        rfl
      have hcodeName := List.find?_some hfind
      obtain ⟨position, hposition⟩ : ∃ position,
          c'.pool.findAttribute? m.attributes "Code" = some position := by
        rw [← Option.isSome_iff_exists, ConstantPool.findAttribute?, List.findIdx?_isSome,
          List.any_eq_true]
        exact ⟨a, List.mem_of_find?_eq_some hfind, hcodeName⟩
      have hput : (putCode c'.pool nameIndex data m).attributes =
          m.attributes.modify position fun a => { a with data } := by
        rw [putCode, hposition]
      have hmodify := find?_modify (f := fun a : Attribute => { a with data }) (fun _ => rfl)
        hposition
      have hparse := CodeAttribute.parse_eq_ok.mpr ⟨hne, hdata⟩
      rw [hmethod]
      dsimp only
      rw [hput, hmodify, hfind]
      show (CodeAttribute.parse data).map some = _
      rw [hparse]
      rfl

theorem setMethodCode_eq_ok {code : CodeAttribute} :
    setMethodCode index code c = .ok () c' ↔
      ∃ data nameIndex pool, code.toBytes = .ok data ∧
        ConstantPool.internText "Code" c.pool = .ok nameIndex pool ∧ index < c.methods.length ∧
        c' = { c with pool, methods := c.methods.modify index (putCode pool nameIndex data) } := by
  constructor
  · intro h
    obtain ⟨data, c₁, hdata, hrest⟩ := Success.state_bind.mp h
    obtain ⟨hbytes, rfl⟩ := ClassEdit.check_eq_ok.mp hdata
    obtain ⟨nameIndex, c₂, hname, hset⟩ := Success.state_bind.mp hrest
    obtain ⟨pool, hintern, rfl⟩ := ClassEdit.onPool_eq_ok.mp hname
    obtain ⟨c₃, _, hget, hput⟩ := Success.state_bind.mp hset
    cases hget
    by_cases hindex : index < c.methods.length
    · rw [if_pos hindex] at hput
      cases hput
      exact ⟨data, nameIndex, pool, hbytes, hintern, hindex, rfl⟩
    · rw [if_neg hindex] at hput
      exact absurd hput Success.state_throw
  · intro h
    obtain ⟨data, nameIndex, pool, hdata, hintern, hindex, rfl⟩ := h
    have hcheck : ClassEdit.check (fun _ => code.toBytes) c = .ok data c :=
      ClassEdit.check_eq_ok.mpr ⟨hdata, rfl⟩
    have hname : ClassEdit.onPool (ConstantPool.internText "Code") c =
        .ok nameIndex { c with pool } := ClassEdit.onPool_eq_ok.mpr ⟨pool, hintern, rfl⟩
    unfold setMethodCode
    rw [Success.state_bind_ok hcheck, Success.state_bind_ok hname]
    show (if index < c.methods.length then _ else _ : ClassEdit Unit) { c with pool } = _
    rw [if_pos hindex]
    rfl

/-- A method that is given code keeps its name, descriptor and flags. -/
theorem putCode_names (pool : ConstantPool) (nameIndex : UInt16) (data : List UInt8) (m : Member) :
    (putCode pool nameIndex data m).access = m.access ∧
      (putCode pool nameIndex data m).nameIndex = m.nameIndex ∧
      (putCode pool nameIndex data m).descriptorIndex = m.descriptorIndex := by
  unfold putCode
  split <;> exact ⟨rfl, rfl, rfl⟩

/-- Where a method has code, the name of the attribute is known. -/
theorem sameCodeName_of_methodCode {code : CodeAttribute} {later : ConstantPool}
    (hcode : c.methodCode index = .ok (some code)) (hgrows : c.pool.Grows later) :
    SameCodeName c.pool later := by
  unfold methodCode at hcode
  split at hcode
  · cases hcode
  · split at hcode
    · cases hcode
    · rename_i a hfind
      have hname := List.find?_some hfind
      cases htext : c.pool.getText a.nameIndex with
      | error e => simp [htext, Except.toOption] at hname
      | ok text =>
        obtain rfl : text = "Code" := by simpa [htext, Except.toOption] using hname
        exact fun i => hgrows.getText_iff htext

end ClassFile

end ClassPatch
