import Mathlib
import ClassPatch.Rewrite.ReplaceBody
import ClassPatch.Proofs.ConstantPool.Intern

/-!
# Interning again

A constant that was interned has its first entry where it was found or added, and keeps it there
in every later pool. So an edit of the pool that is made again, however much was added in between,
gives the same indices and adds nothing.
-/

namespace ClassPatch

open Code

namespace ConstantPool

variable {pool later : ConstantPool} {c : Constant} {index : UInt16}

/-- The first entry of a constant stays the first. -/
theorem Grows.find? (h : pool.Grows later) (hfind : pool.find? c = some index) :
    later.find? c = some index := by
  rw [find?_eq_some_iff] at hfind ⊢
  obtain ⟨hentry, hfirst⟩ := hfind
  obtain ⟨added, hadded, -⟩ := h
  obtain ⟨hlt, -⟩ := Array.getElem?_eq_some_iff.mp hentry
  have hsame : ∀ place ≤ index.toNat, later.entries[place]? = pool.entries[place]? := by
    intro place hplace
    have hlength : place < pool.entries.toList.length := by
      rw [Array.length_toList]
      omega
    rw [← Array.getElem?_toList, ← Array.getElem?_toList, hadded,
      List.getElem?_append_left hlength]
  constructor
  · rw [hsame _ le_rfl, hentry]
  · intro earlier hearlier
    rw [hsame earlier hearlier.le]
    exact hfirst earlier hearlier

/-- A constant that was not there has its first entry at the end. -/
theorem find?_push (h : c ∉ pool.entries.toList) (hsize : pool.size ≤ maxSize) :
    (pool.push c).find? c = some (UInt16.ofNat pool.size) := by
  have hindex : (UInt16.ofNat pool.size).toNat = pool.entries.toList.length :=
    UInt16.toNat_ofNat_of_lt' (Nat.lt_succ_of_le hsize)
  have hentries : (pool.push c).entries.toList = pool.entries.toList ++ c.slots :=
    Array.toList_appendList
  rw [find?_eq_some_iff, hindex]
  constructor
  · rw [← Array.getElem?_toList, hentries, List.getElem?_append_right le_rfl, Nat.sub_self]
    unfold Constant.slots
    split <;> rfl
  · intro earlier hearlier hentry
    rw [← Array.getElem?_toList, hentries, List.getElem?_append_left hearlier] at hentry
    exact h (List.mem_of_getElem? hentry)

theorem find?_of_intern {grown : ConstantPool} (h : intern c pool = .ok index grown) :
    grown.find? c = some index := by
  have hcases := interned_intern c pool
  rw [h] at hcases
  cases hcases with
  | found hfind => exact hfind
  | added hnew hsize _ => exact find?_push hnew hsize

end ConstantPool

/-! ## Steady edits -/

namespace PoolEdit

variable {α β : Type}

/-- Made again in a later pool, the edit gives the same result and adds nothing. -/
def Steady (x : PoolEdit α) : Prop :=
  x.Yields fun later a => x later = .ok a later

namespace Steady

theorem pure (a : α) : Steady (Pure.pure a : PoolEdit α) :=
  Yields.pure fun _ => rfl

theorem bind {x : PoolEdit α} {f : α → PoolEdit β} (hx : Steady x) (hf : ∀ a, Steady (f a)) :
    Steady (x >>= f) := by
  refine (Yields.bind hx hf).mono fun later b h => ?_
  obtain ⟨a, ha, hb⟩ := h
  rw [Success.state_bind_ok ha, hb]

theorem ofExcept (x : Except Error α) : Steady (PoolEdit.ofExcept x) :=
  (yields_ofExcept x).mono fun _ _ h => ofExcept_eq_ok.mpr ⟨h, rfl⟩

theorem intern (c : Constant) : Steady (ConstantPool.intern c) := by
  intro pool index grown h
  have hgrows := ConstantPool.intern_grows c pool
  rw [h] at hgrows
  refine ⟨hgrows, fun later hlater => ?_⟩
  have hfind := hlater.find? (ConstantPool.find?_of_intern h)
  simp [ConstantPool.intern, hfind]

theorem internString (text : String) : Steady (ConstantPool.internString text) :=
  (intern _).bind fun _ => intern _

theorem pushInt (value : Int32) : Steady (ConstantValue.pushInt value) := by
  unfold ConstantValue.pushInt
  split_ifs
  · exact pure _
  · exact pure _
  · exact pure _
  · exact (intern _).bind fun _ => pure _

theorem push (value : ConstantValue) : Steady value.push := by
  unfold ConstantValue.push
  cases value with
  | void => exact pure _
  | null => exact pure _
  | bool value => exact (pushInt _).bind fun _ => pure _
  | int value => exact (pushInt value).bind fun _ => pure _
  | string text => exact (internString text).bind fun _ => pure _
  | _ =>
    dsimp only
    split_ifs
    all_goals first
      | exact pure _
      | exact (intern _).bind fun _ => pure _

/-- The code that returns a value is the same each time it is made. -/
theorem constantCode (value : ConstantValue) (r : ClassFile.Replacement) :
    Steady (ClassFile.constantCode value r) :=
  (push value).bind fun _ => (ofExcept _).bind fun _ => pure _

end Steady

end PoolEdit

end ClassPatch
