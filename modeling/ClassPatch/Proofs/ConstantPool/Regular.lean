import Mathlib
import ClassPatch.MethodBody.Encode
import ClassPatch.Rewrite.ReplaceBody
import ClassPatch.Rewrite.Redirect
import ClassPatch.Proofs.ConstantPool.Format
import ClassPatch.Proofs.ConstantPool.Intern
import ClassPatch.Proofs.Preservation

/-!
# Edits keep pools regular

Every edit of a pool is made of single constants that are added at its end, each with the
slots that it fills. So an edit leaves a pool that grew from the one before and is regular
if that one was, and this holds of an edit that stops halfway too.
-/

namespace ClassPatch

open Code

namespace ConstantPool

/-- A later pool, which is regular if the pool is. -/
structure Extends (pool later : ConstantPool) : Prop where
  grows : pool.Grows later
  regular : pool.Regular → later.Regular

instance : Std.Refl Extends where
  refl pool := ⟨.refl pool, id⟩

instance : IsTrans ConstantPool Extends where
  trans _ _ _ h h' := ⟨h.grows.trans h'.grows, fun hregular => h'.regular (h.regular hregular)⟩

theorem regular_empty : empty.Regular := ⟨[], by simp, rfl⟩

theorem Regular.push {pool : ConstantPool} (h : pool.Regular) {c : Constant} (hc : c ≠ .unusable) :
    (pool.push c).Regular := by
  obtain ⟨constants, hne, hentries⟩ := h
  refine ⟨constants ++ [c], List.forall_mem_append.mpr ⟨hne, List.forall_mem_singleton.mpr hc⟩, ?_⟩
  rw [ConstantPool.push, Array.toList_appendList, hentries, List.flatMap_append,
    List.flatMap_singleton, List.cons_append]

theorem keeps_intern {c : Constant} (hc : c ≠ .unusable) : Keeps Extends (intern c) := by
  intro pool
  have hcases := interned_intern c pool
  generalize intern c pool = result at hcases
  cases hcases with
  | found _ => exact Std.Refl.refl pool
  | overfull _ => exact Std.Refl.refl pool
  | overflow hnew _ _ =>
    -- the constant that fills the pool beyond its limit stays in it, with all its slots
    exact ⟨grows_push hnew, fun hregular => hregular.push hc⟩
  | added hnew _ _ => exact ⟨grows_push hnew, fun hregular => hregular.push hc⟩

theorem keeps_internText (text : String) : Keeps Extends (internText text) :=
  keeps_intern (by simp)

theorem keeps_internClass (name : String) : Keeps Extends (internClass name) :=
  (keeps_internText name).bind fun _ => keeps_intern (by simp)

theorem keeps_internString (text : String) : Keeps Extends (internString text) :=
  (keeps_internText text).bind fun _ => keeps_intern (by simp)

theorem keeps_internNameAndType (name descriptor : String) :
    Keeps Extends (internNameAndType name descriptor) :=
  (keeps_internText name).bind fun _ => (keeps_internText descriptor).bind fun _ =>
    keeps_intern (by simp)

theorem keeps_internMember (kind : MemberKind) (owner name descriptor : String) :
    Keeps Extends (internMember kind owner name descriptor) :=
  (keeps_internClass owner).bind fun _ => (keeps_internNameAndType name descriptor).bind fun _ =>
    keeps_intern (by simp)

end ConstantPool

open ConstantPool

theorem PoolEdit.keeps_ofExcept {α : Type} (x : Except Error α) :
    Keeps Extends (PoolEdit.ofExcept x) := by
  cases x with
  | error e => exact .throw e
  | ok a => exact .pure a

/-! ## Constants as results -/

namespace ConstantValue

theorem keeps_pushInt (value : Int32) : Keeps Extends (pushInt value) := by
  unfold pushInt
  split_ifs
  · exact .pure _
  · exact .pure _
  · exact .pure _
  · exact (keeps_intern (by simp)).bind fun _ => .pure _

theorem keeps_push (value : ConstantValue) : Keeps Extends value.push := by
  unfold push
  cases value with
  | void => exact .pure _
  | null => exact .pure _
  | bool value => exact (keeps_pushInt _).bind fun _ => .pure _
  | int value => exact (keeps_pushInt value).bind fun _ => .pure _
  | string text => exact (keeps_internString text).bind fun _ => .pure _
  | _ =>
    dsimp only
    split_ifs
    all_goals first
      | exact .pure _
      | exact (keeps_intern (by simp)).bind fun _ => .pure _

end ConstantValue

theorem ClassFile.keeps_constantCode (value : ConstantValue) (r : Replacement) :
    Keeps Extends (constantCode value r) :=
  value.keeps_push.bind fun _ => (PoolEdit.keeps_ofExcept _).bind fun _ => .pure _

/-! ## Redirected calls -/

namespace Redirect

theorem keeps_onConstant (opcode : UInt8) {index : PoolEdit UInt16} (h : Keeps Extends index) :
    Keeps Extends (onConstant opcode index) :=
  h.bind fun _ => .pure _

theorem keeps_pushClass (name : String) (majorVersion : UInt16) :
    Keeps Extends (pushClass name majorVersion) := by
  unfold pushClass
  split_ifs
  · exact (keeps_onConstant _ (keeps_internClass name)).bind fun _ => .pure _
  · exact (keeps_onConstant _ (keeps_internString _)).bind fun _ =>
      (keeps_onConstant _ (keeps_internMember _ _ _ _)).bind fun _ => .pure _

theorem keeps_pushPrimitiveClass (wrapper : String) :
    Keeps Extends (pushPrimitiveClass wrapper) :=
  (keeps_onConstant _ (keeps_internMember _ _ _ _)).bind fun _ => .pure _

theorem keeps_pushReturnClass (majorVersion : UInt16) (ret : ReturnType) :
    Keeps Extends (pushReturnClass majorVersion ret) := by
  unfold pushReturnClass
  cases ret with
  | void => exact keeps_pushPrimitiveClass _
  | value type =>
    dsimp only
    split
    · exact keeps_pushPrimitiveClass _
    · exact keeps_pushClass _ _
    · exact .pure _

theorem keeps_box (type : FieldType) : Keeps Extends (box type) := by
  unfold box
  split
  · exact (keeps_onConstant _ (keeps_internMember _ _ _ _)).bind fun _ => .pure _
  · exact .pure _

theorem keeps_storeArgument (position : Nat) (spill : Spill) :
    Keeps Extends (storeArgument position spill) :=
  (ConstantValue.keeps_pushInt _).bind fun _ => (keeps_box _).bind fun _ => .pure _

theorem keeps_storeArguments (acc : List (List (Instruction Label))) (position : Nat)
    (spilled : List Spill) : Keeps Extends (storeArguments acc position spilled) := by
  induction spilled generalizing acc position with
  | nil => exact .pure _
  | cons spill rest ih => exact (keeps_storeArgument position spill).bind fun _ => ih _ _

theorem keeps_adaptResult (ret : ReturnType) : Keeps Extends (adaptResult ret) := by
  unfold adaptResult
  cases ret with
  | void => exact .pure _
  | value type =>
    dsimp only
    split
    · exact (keeps_onConstant _ (keeps_internClass _)).bind fun _ =>
        (keeps_onConstant _ (keeps_internMember _ _ _ _)).bind fun _ => .pure _
    · exact (keeps_onConstant _ (keeps_internClass _)).bind fun _ => .pure _
    · exact .pure _

theorem keeps_sequence (site : Site) (call : Call) : Keeps Extends (sequence site call) :=
  (PoolEdit.keeps_ofExcept _).bind fun _ =>
    (keeps_onConstant _ (keeps_internString _)).bind fun _ =>
    (keeps_pushReturnClass _ _).bind fun _ =>
    (ConstantValue.keeps_pushInt _).bind fun _ =>
    (keeps_onConstant _ (keeps_internClass _)).bind fun _ =>
    (keeps_storeArguments _ _ _).bind fun _ =>
    (keeps_onConstant _ (keeps_internMember _ _ _ _)).bind fun _ =>
    (keeps_adaptResult _).bind fun _ => .pure _

theorem keeps_redirectNodes (site : Site) (targets : List MethodKey) (acc : Rewritten)
    (nodes : List Node) : Keeps Extends (redirectNodes site targets acc nodes) := by
  induction nodes generalizing acc with
  | nil => exact .pure _
  | cons node rest ih =>
    refine Keeps.get.bind fun pool => (PoolEdit.keeps_ofExcept _).bind fun call? => ?_
    cases call? with
    | none => exact ih _
    | some call => exact (keeps_sequence site call).bind fun _ => ih _

end Redirect

/-! ## Bodies -/

namespace MethodBody

theorem keeps_tableAttribute (name : String) (entries : List (List UInt8)) :
    Keeps Extends (tableAttribute name entries) := by
  unfold tableAttribute
  split_ifs
  · exact .pure _
  · exact (keeps_internText name).bind fun _ => .pure _

theorem keeps_frameAttribute (places : Places) (frames : Option (List (Frame Label))) :
    Keeps Extends (frameAttribute places frames) := by
  unfold frameAttribute
  cases frames with
  | none => exact .pure _
  | some frames =>
    dsimp only
    split_ifs
    · exact (keeps_internText _).bind fun _ => (PoolEdit.keeps_ofExcept _).bind fun _ => .pure _
    · exact .throw _

theorem keeps_encode (body : MethodBody) : Keeps Extends body.encode :=
  (PoolEdit.keeps_ofExcept _).bind fun _ =>
    (keeps_tableAttribute _ _).bind fun _ => (keeps_tableAttribute _ _).bind fun _ =>
    (keeps_tableAttribute _ _).bind fun _ => (keeps_frameAttribute _ _).bind fun _ => .pure _

end MethodBody

end ClassPatch
