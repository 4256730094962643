import Mathlib
import ClassPatch.Proofs.Redirect.Method

/-!
# Redirecting in a class

The methods of a class are gone through in order. Each step leaves the other methods alone,
so that what it makes of its own method is still there at the end.
-/

namespace ClassPatch.ClassFile

open Bytes Code Redirect

variable {targets : List MethodKey} {dispatcher : Dispatcher} {pool : ConstantPool}
  {c c' : ClassFile} {index n : Nat}

/-! ## One method among others -/

/-- What a method was made stays when other methods are edited after it. -/
theorem Redirected.of_edited_after {d : ClassFile}
    (h : Redirected dispatcher targets pool c c' index) (hedited : c'.Recoded d)
    (hmethod : d.methods[index]? = c'.methods[index]?) :
    Redirected dispatcher targets pool c d index := by
  cases h with
  | untouched hnone hsame => exact .untouched hnone (hmethod.trans hsame)
  | rewritten hsome hcode hcode' hread hblocks htargets =>
    exact .rewritten hsome hcode ((hedited.methodCode_eq hmethod).trans hcode') hread hblocks
      htargets

/-- What a method is made does not depend on edits of other methods before it. -/
theorem Redirected.of_edited_before {d : ClassFile}
    (h : Redirected dispatcher targets pool c' d index) (hedited : c.Recoded c')
    (hmethod : c'.methods[index]? = c.methods[index]?) :
    Redirected dispatcher targets pool c d index := by
  have hread := hedited.instructionsAt_eq hmethod
  cases h with
  | untouched hnone hsame =>
    rw [hread] at hnone
    exact .untouched hnone (hsame.trans hmethod)
  | rewritten hsome hcode hcode' hnew hblocks htargets =>
    rw [hread] at hsome hblocks htargets
    rw [hedited.methodCode_eq hmethod] at hcode
    rw [hedited.majorVersion] at hblocks
    exact .rewritten hsome hcode hcode' hnew hblocks htargets

/-! ## All methods -/

/-- The first method is redirected, and then the others in a class where they are what they
were. -/
theorem redirectMethods_cons_eq_ok {first : Nat} {rest calls : List Nat}
    (hnodup : (first :: rest).Nodup)
    (h : (first :: rest).mapM (redirectMethod targets dispatcher) c = .ok calls c')
    (hends : ∀ index ∈ first :: rest, ∀ l ∈ (c.instructionsAt index).getLast?,
      Opcode.inverse? l.instruction.opcode = none) :
    ∃ n c₁ ns, calls = n :: ns ∧ redirectMethod targets dispatcher first c = .ok n c₁ ∧
      rest.mapM (redirectMethod targets dispatcher) c₁ = .ok ns c' ∧
      (∀ index ∈ rest, c₁.methods[index]? = c.methods[index]?) ∧
      ∀ index ∈ rest, ∀ l ∈ (c₁.instructionsAt index).getLast?,
        Opcode.inverse? l.instruction.opcode = none := by
  obtain ⟨n, c₁, ns, hfirst, hrest, rfl⟩ := Success.state_mapM_cons.mp h
  obtain ⟨hrecoded, hothers, -⟩ := redirectMethod_eq_ok hfirst (hends first List.mem_cons_self)
  have hsame : ∀ index ∈ rest, c₁.methods[index]? = c.methods[index]? := by
    intro index hindex
    refine hothers index ?_
    rintro rfl
    exact (List.nodup_cons.mp hnodup).1 hindex
  refine ⟨n, c₁, ns, rfl, hfirst, hrest, hsame, fun index hindex => ?_⟩
  rw [hrecoded.instructionsAt_eq (hsame index hindex)]
  exact hends index (List.mem_cons_of_mem first hindex)

/-- The methods at distinct indices are redirected one after the other. The pool in which
keys are read is any from the end of the run on. -/
theorem redirectMethods_eq_ok {indices calls : List Nat} (hnodup : indices.Nodup)
    (h : indices.mapM (redirectMethod targets dispatcher) c = .ok calls c')
    (hends : ∀ index ∈ indices, ∀ l ∈ (c.instructionsAt index).getLast?,
      Opcode.inverse? l.instruction.opcode = none) :
    c.Recoded c' ∧ (∀ index, index ∉ indices → c'.methods[index]? = c.methods[index]?) ∧
      ∀ later, c'.pool.Grows later → calls = indices.map (targetCalls later targets c) ∧
        ∀ index ∈ indices, Redirected dispatcher targets later c c' index := by
  induction indices generalizing c calls with
  | nil =>
    rw [List.mapM_nil] at h
    obtain ⟨rfl, rfl⟩ := Success.state_pure.mp h
    exact ⟨.refl c', fun _ _ => rfl, fun later _ => ⟨rfl, fun index hindex => by cases hindex⟩⟩
  | cons first rest ih =>
    obtain ⟨n, c₁, ns, rfl, hfirst, hrest, hsame, hendsRest⟩ :=
      redirectMethods_cons_eq_ok hnodup h hends
    rw [List.nodup_cons] at hnodup
    obtain ⟨hedited, hothers, hcode⟩ :=
      redirectMethod_eq_ok hfirst (hends first List.mem_cons_self)
    obtain ⟨hedited', hothers', hcode'⟩ := ih hnodup.2 hrest hendsRest
    refine ⟨hedited.trans hedited', fun index hindex => ?_, fun later hlater => ?_⟩
    · rw [List.mem_cons, not_or] at hindex
      exact (hothers' index hindex.2).trans (hothers index hindex.1)
    · obtain ⟨rfl, hredirected⟩ := hcode later (hedited'.grows.trans hlater)
      obtain ⟨rfl, hredirected'⟩ := hcode' later hlater
      refine ⟨?_, fun index hindex => ?_⟩
      · rw [List.map_cons]
        refine congrArg _ (List.map_congr_left fun index hindex => ?_)
        rw [targetCalls, hedited.instructionsAt_eq (hsame index hindex), targetCalls]
      · rcases List.mem_cons.mp hindex with rfl | hindex
        · exact hredirected.of_edited_after hedited' (hothers' index hnodup.1)
        · exact (hredirected' index hindex).of_edited_before hedited (hsame index hindex)

/-- Redirecting the calls of targets in a class gives their number. Methods without such calls
stay as they are; in the others each call becomes the instructions that are made for it, and
all other instructions stay, with their branches moved along. Nothing else of the class changes,
apart from new constants. Keys are read in the pool with the new constants, and those of calls
that resolved before are the same as before. -/
theorem injectRedirects_eq_ok (h : injectRedirects targets dispatcher c = .ok n c')
    (hends : ∀ index < c.methods.length, ∀ l ∈ (c.instructionsAt index).getLast?,
      Opcode.inverse? l.instruction.opcode = none) :
    n = ((List.range c.methods.length).map (targetCalls c'.pool targets c)).sum ∧
      (∀ index < c.methods.length, Redirected dispatcher targets c'.pool c c' index) ∧
      c.Recoded c' ∧
      ∀ (i : Instruction Nat) key, calledKey? c.pool i = some key →
        calledKey? c'.pool i = some key := by
  obtain ⟨_, c₁, hget, h₁⟩ := Success.state_bind.mp h
  cases hget
  obtain ⟨calls, c₂, hrun, h₂⟩ := Success.state_bind.mp h₁
  obtain ⟨rfl, rfl⟩ := Success.state_pure.mp h₂
  obtain ⟨hedited, -, hcode⟩ := redirectMethods_eq_ok List.nodup_range hrun fun index hindex =>
    hends index (List.mem_range.mp hindex)
  obtain ⟨rfl, hredirected⟩ := hcode c'.pool (.refl _)
  refine ⟨?_, fun index hindex => hredirected index (List.mem_range.mpr hindex), hedited,
    fun i key hkey => calledKey?_grows hedited.grows hkey⟩
  rw [List.sum_eq_foldl]

/-- A class `A` of static methods `f` with an `int` parameter and the given code. Its constant 7
stands for this method. -/
def ofCode (codes : List (List UInt8)) : ClassFile where
  minorVersion := 0
  majorVersion := 52
  pool := ⟨#[.unusable, .utf8 "Code", .utf8 "A", .classRef 2, .utf8 "f", .utf8 "(I)V",
    .nameAndType 4 5, .member .method 3 6]⟩
  access := Access.publicFlag
  thisClass := 3
  superClass := 0
  interfaces := []
  fields := []
  methods := codes.map fun code =>
    { access := Access.publicFlag ||| Access.staticFlag, nameIndex := 4, descriptorIndex := 5,
      attributes := [⟨1, [0, 1, 0, 1] ++ BigEndian.bytes 4 code.length ++ code ++ [0, 0, 0, 0]⟩] }
  attributes := []

/-- A method that calls itself twice, and one that returns. -/
def twoCalls : ClassFile := ofCode [[0x1a, 0xb8, 0, 7, 0x1a, 0xb8, 0, 7, 0xb1], [0xb1]]

/-- Both calls are counted and replaced, and the other method stays. -/
theorem injectRedirects_eq_ok_twoCalls :
    (∀ index < twoCalls.methods.length, ∀ l ∈ (twoCalls.instructionsAt index).getLast?,
      Opcode.inverse? l.instruction.opcode = none) ∧
    ∃ c', injectRedirects [⟨"LA;f(I)V"⟩] ⟨"H", "h"⟩ twoCalls = .ok 2 c' ∧
      ((List.range 2).map (targetCalls c'.pool [⟨"LA;f(I)V"⟩] twoCalls)).sum = 2 ∧
      Redirected ⟨"H", "h"⟩ [⟨"LA;f(I)V"⟩] c'.pool twoCalls c' 0 ∧
      Redirected ⟨"H", "h"⟩ [⟨"LA;f(I)V"⟩] c'.pool twoCalls c' 1 ∧
      twoCalls.Recoded c' := by
  have hends : ∀ index < twoCalls.methods.length,
      ∀ l ∈ (twoCalls.instructionsAt index).getLast?,
        Opcode.inverse? l.instruction.opcode = none := by
    decide +kernel
  have htwo : (match injectRedirects [⟨"LA;f(I)V"⟩] ⟨"H", "h"⟩ twoCalls with
      | .ok n _ => decide (n = 2)
      | .error _ _ => false) = true := by
    decide +kernel
  split at htwo
  · rename_i n c' h
    obtain rfl := of_decide_eq_true htwo
    obtain ⟨hcount, hredirected, hedited, -⟩ := injectRedirects_eq_ok h hends
    exact ⟨hends, c', h, hcount.symm, hredirected 0 (by decide), hredirected 1 (by decide), hedited⟩
  · cases htwo

/-- A method that calls itself, and one that calls what constant 23 stands for. There is no such
constant. -/
def danglingCall : ClassFile := ofCode [[0x1a, 0xb8, 0, 7, 0xb1], [0x1a, 0xb8, 0, 23, 0x57, 0xb1]]

/-- Keys have to be read in the new pool: the constants that are added for the first method may
be what a call in the second one was missing. -/
theorem injectRedirects_danglingCall :
    (∀ index < danglingCall.methods.length, ∀ l ∈ (danglingCall.instructionsAt index).getLast?,
      Opcode.inverse? l.instruction.opcode = none) ∧
    ((List.range 2).map (targetCalls danglingCall.pool
      [⟨"LA;f(I)V"⟩, ⟨"Ljava/lang/Integer;valueOf(I)Ljava/lang/Integer;"⟩] danglingCall)) = [1, 0] ∧
    ∃ c', injectRedirects [⟨"LA;f(I)V"⟩, ⟨"Ljava/lang/Integer;valueOf(I)Ljava/lang/Integer;"⟩]
      ⟨"H", "h"⟩ danglingCall = .ok 2 c' ∧ c'.methods[1]? ≠ danglingCall.methods[1]? := by
  refine ⟨by decide +kernel, by decide +kernel, ?_⟩
  have htwo : (match injectRedirects
      [⟨"LA;f(I)V"⟩, ⟨"Ljava/lang/Integer;valueOf(I)Ljava/lang/Integer;"⟩] ⟨"H", "h"⟩ danglingCall with
      | .ok n c' => decide (n = 2 ∧ c'.methods[1]? ≠ danglingCall.methods[1]?)
      | .error _ _ => false) = true := by
    decide +kernel
  split at htwo
  · rename_i n c' h
    obtain ⟨rfl, hchanged⟩ := of_decide_eq_true htwo
    exact ⟨c', h, hchanged⟩
  · cases htwo

end ClassPatch.ClassFile
