import Mathlib
import ClassPatch.Proofs.MethodBody.Stored
import ClassPatch.Proofs.Redirect.Inject
import ClassPatch.Proofs.Redirect.Quiet
import ClassPatch.Proofs.Rewrite.Stored

/-!
# Redirecting again

A class in which calls have been redirected has none left to redirect, as long as redirected calls
do not call targets themselves. Every method is quiet after its turn, and stays so while the others
have theirs; a second run finds only quiet methods and changes nothing.
-/

namespace ClassPatch

open Code Redirect

namespace ClassFile

variable {targets : List MethodKey} {dispatcher : Dispatcher} {c c' : ClassFile} {index n : Nat}

/-! ## One method -/

/-- The method has no code, or code that can be decoded and has only quiet instructions. -/
def QuietAt (targets : List MethodKey) (c : ClassFile) (index : Nat) : Prop :=
  c.methodCode index = .ok none ∨ ∃ code body, c.methodCode index = .ok (some code) ∧
    MethodBody.decode c.pool code = .ok body ∧
    ∀ i, .instruction i ∈ body.nodes → Quiet c.pool targets i

/-- In a quiet method nothing is redirected. -/
theorem redirectMethod_of_quietAt (h : c.QuietAt targets index) :
    redirectMethod targets dispatcher index c = .ok 0 c := by
  have hcode {code? : Option CodeAttribute} (hcode : c.methodCode index = .ok code?) :
      ClassEdit.check (·.methodCode index) c = .ok code? c :=
    ClassEdit.check_eq_ok.mpr ⟨hcode, rfl⟩
  rcases h with hnone | ⟨code, body, hsome, hdecode, hquiet⟩
  · exact Success.state_bind.mpr ⟨none, c, hcode hnone, rfl⟩
  · refine Success.state_bind.mpr ⟨some code, c, hcode hsome, Success.state_bind.mpr ⟨body, c,
      ClassEdit.check_eq_ok.mpr ⟨hdecode, rfl⟩, Success.state_bind.mpr ⟨c, c, rfl,
      Success.state_bind.mpr ⟨_, c, ClassEdit.onPool_eq_ok.mpr ⟨c.pool,
        redirectNodes_of_quiet hquiet, rfl⟩, rfl⟩⟩⟩⟩

/-- A quiet method stays quiet while others are edited. -/
theorem QuietAt.recode (h : c.QuietAt targets index) (hrecoded : c.Recoded c')
    (hmethod : c'.methods[index]? = c.methods[index]?) : c'.QuietAt targets index := by
  unfold QuietAt
  rw [hrecoded.methodCode_eq hmethod]
  refine h.imp id fun h => ?_
  obtain ⟨code, body, hsome, hdecode, hquiet⟩ := h
  exact ⟨code, body, hsome, MethodBody.decode_grows hrecoded.grows hdecode,
    fun i hi => (hquiet i hi).grows hrecoded.grows⟩

/-- A method without calls of targets is quiet. -/
theorem quiet_of_calls_eq_zero {site : Site} {body : MethodBody} {r : Rewritten}
    {pool pool' : ConstantPool}
    (hnodes : redirectNodes site targets { nodes := [], calls := 0, used := 0 } body.nodes pool =
      .ok r pool') (hcalls : r.calls = 0) :
    ∀ i, .instruction i ∈ body.nodes → Quiet pool' targets i := by
  intro i hi
  obtain ⟨-, hreplaced⟩ := redirectNodes_eq_ok hnodes
  obtain ⟨groups, -, -, hcount⟩ := hreplaced pool' (.refl pool')
  rw [hcalls, Nat.zero_add, targetCount] at hcount
  have hmem : i ∈ body.nodes.filterMap Node.instruction? :=
    List.mem_filterMap.mpr ⟨_, hi, rfl⟩
  have hnot := List.countP_eq_zero.mp hcount.symm i hmem
  exact ⟨known_of_redirectNodes hnodes i hi, Bool.not_eq_true _ ▸ hnot⟩

/-- Redirected code is decoded again, and is quiet. -/
theorem exists_decode_of_redirected {site : Site} {code code' : CodeAttribute}
    {body widened : MethodBody} {r : Rewritten} {before pool encoded later : ConstantPool}
    {read : List (Located Nat)}
    (hown : ∀ m ∈ ownMethods site.dispatcher, .ofParts m.owner m.name m.descriptor ∉ targets)
    (hdecode : MethodBody.decode before code = .ok body)
    (hread : disassemble code.code = .ok read)
    (hends : ∀ l ∈ read.getLast?, Opcode.inverse? l.instruction.opcode = none) (hne : read ≠ [])
    (hnodes : redirectNodes site targets { nodes := [], calls := 0, used := 0 } body.nodes before =
      .ok r pool)
    (hwiden : widenBody body r = .ok widened) (hencode : widened.encode pool = .ok code' encoded)
    (hgrows : encoded.Grows later) :
    code'.code ≠ [] ∧ ∃ again, MethodBody.decode later code' = .ok again ∧
      ∀ i, .instruction i ∈ again.nodes → Quiet later targets i := by
  obtain ⟨read', found, stored, hdecoded, -, -⟩ := MethodBody.decode_eq_ok hdecode
  obtain rfl : read = read' := Except.ok.inj (hread.symm.trans hdecoded.disassemble_eq)
  obtain ⟨blocks, moved, hnew, hbecomes⟩ := exists_becomes_of_encode hdecoded hends hne hnodes
    hwiden hencode hgrows
  have hencoded := (MethodBody.yields_encode _ _ _ _ hencode).1
  obtain ⟨-, hreplaced⟩ := redirectNodes_eq_ok hnodes
  obtain ⟨groups, hgroups, hflat, -⟩ := hreplaced later (hencoded.trans hgrows)
  obtain ⟨edits, hedit⟩ := exists_edited hgroups
  obtain ⟨hwidened, htables⟩ : widened.nodes = groups.flatten ∧ widened.tables = body.tables := by
    unfold widenBody at hwiden
    split at hwiden
    · cases hwiden
    · cases hwiden
      exact ⟨hflat, rfl⟩
  obtain ⟨again, hagain⟩ := MethodBody.exists_decode_of_edited hdecode (hwidened ▸ hedit) htables
    hencode hgrows hnew
  -- an instruction that is read again is one of those that an old one has become
  refine ⟨ne_nil_of_becomes hnew hbecomes hne, again, hagain, fun i hi => ?_⟩
  obtain ⟨read', found', -, hdecoded', -, -⟩ := MethodBody.decode_eq_ok hagain
  obtain rfl : read' = blocks.flatten :=
    Except.ok.inj (hdecoded'.disassemble_eq.symm.trans hnew)
  obtain ⟨l', hl', hlabels⟩ := hdecoded'.exists_read hi
  obtain ⟨block, hblock, hl'⟩ := List.mem_flatten.mp hl'
  obtain ⟨l, hl, hbecome⟩ := exists_of_mem_right hbecomes hblock
  -- what the old instruction calls was looked up on the way
  have hknown : Known later l.instruction := by
    obtain ⟨i, hi, hi'⟩ := hdecoded.exists_node hl
    exact ((known_mapTargetsM hi').mp (known_of_redirectNodes hnodes i hi)).grows
      (hencoded.trans hgrows)
  exact (quiet_of_becomes hown hknown hbecome l' hl').mapTargetsM hlabels

/-- A method is quiet after redirecting in it. -/
theorem quietAt_of_redirectMethod
    (hown : ∀ m ∈ ownMethods dispatcher, .ofParts m.owner m.name m.descriptor ∉ targets)
    (h : redirectMethod targets dispatcher index c = .ok n c')
    (hends : ∀ l ∈ (c.instructionsAt index).getLast?, Opcode.inverse? l.instruction.opcode = none) :
    c'.QuietAt targets index := by
  obtain ⟨hnone, rfl, rfl⟩ | ⟨code, body, r, pool, hcode, hbody, hnodes, rfl, hrest⟩ :=
    redirectMethod_cases h
  · exact .inl hnone
  have hgrows := (redirectNodes_eq_ok hnodes).1
  rcases hrest with ⟨hcalls, rfl⟩ | ⟨hcalls, widened, code', encoded, hwiden, hencode, hset⟩
  · refine .inr ⟨code, body, ?_, MethodBody.decode_grows hgrows hbody,
      quiet_of_calls_eq_zero hnodes hcalls⟩
    rw [← hcode]
    exact methodCode_congr (sameCodeName_of_methodCode hcode hgrows) rfl
  · obtain ⟨data, nameIndex, stored, hdata, hintern, -, rfl⟩ := setMethodCode_eq_ok.mp hset
    have hstored := (ConstantPool.yields_internText _ _ _ _ hintern).1
    have hencoded := (MethodBody.yields_encode _ _ _ _ hencode).1
    obtain ⟨read, found, -, hdecoded, -, -⟩ := MethodBody.decode_eq_ok hbody
    have hread := instructionsAt_of_code hcode hdecoded.disassemble_eq
    rw [hread] at hends
    have hne : read ≠ [] := by
      rintro rfl
      obtain ⟨groups, -, -, hcount⟩ := (redirectNodes_eq_ok hnodes).2 pool (.refl pool)
      rw [targetCount_nodes hdecoded, List.countP_nil] at hcount
      exact hcalls hcount
    obtain ⟨hne', again, hagain, hquiet⟩ := exists_decode_of_redirected hown hbody
      hdecoded.disassemble_eq hends hne hnodes hwiden hencode hstored
    have hname := sameCodeName_of_methodCode hcode (hgrows.trans (hencoded.trans hstored))
    exact .inr ⟨code', again, methodCode_putCode hcode hname rfl hdata hne', hagain, hquiet⟩

/-! ## All methods -/

/-- Each method is quiet after its turn, and stays so. -/
theorem quietAt_of_redirectMethods {indices calls : List Nat} (hnodup : indices.Nodup)
    (hown : ∀ m ∈ ownMethods dispatcher, .ofParts m.owner m.name m.descriptor ∉ targets)
    (h : indices.mapM (redirectMethod targets dispatcher) c = .ok calls c')
    (hends : ∀ index ∈ indices, ∀ l ∈ (c.instructionsAt index).getLast?,
      Opcode.inverse? l.instruction.opcode = none) :
    ∀ index ∈ indices, c'.QuietAt targets index := by
  induction indices generalizing c calls with
  | nil =>
    intro index hindex
    cases hindex
  | cons first rest ih =>
    obtain ⟨n, c₁, ns, -, hfirst, hrest, -, hendsRest⟩ :=
      redirectMethods_cons_eq_ok hnodup h hends
    rw [List.nodup_cons] at hnodup
    obtain ⟨hrecoded', hothers', -⟩ := redirectMethods_eq_ok hnodup.2 hrest hendsRest
    intro index hindex
    rcases List.mem_cons.mp hindex with rfl | hindex
    · -- its own turn makes the method quiet, and later turns are those of other methods
      exact (quietAt_of_redirectMethod hown hfirst (hends _ List.mem_cons_self)).recode hrecoded'
        (hothers' index hnodup.1)
    · exact ih hnodup.2 hrest hendsRest index hindex

/-- In a class of quiet methods nothing is redirected. -/
theorem injectRedirects_of_quietAt
    (h : ∀ index < c.methods.length, c.QuietAt targets index) :
    injectRedirects targets dispatcher c = .ok 0 c := by
  have hrun {indices : List Nat} (h : ∀ index ∈ indices, c.QuietAt targets index) :
      indices.mapM (redirectMethod targets dispatcher) c =
        .ok (List.replicate indices.length 0) c := by
    induction indices with
    | nil => rfl
    | cons index indices ih =>
      exact Success.state_mapM_cons.mpr ⟨0, c, _,
        redirectMethod_of_quietAt (h index List.mem_cons_self), ih fun other hother =>
          h other (List.mem_cons_of_mem _ hother), rfl⟩
  refine Success.state_bind.mpr ⟨c, c, rfl, Success.state_bind.mpr
    ⟨_, c, hrun fun index hindex => h index (List.mem_range.mp hindex), ?_⟩⟩
  rw [← List.sum_eq_foldl, List.sum_replicate, smul_zero]
  rfl

/-- After redirecting in a class, redirecting in it again does nothing. -/
theorem injectRedirects_again
    (hown : ∀ m ∈ ownMethods dispatcher, .ofParts m.owner m.name m.descriptor ∉ targets)
    (h : injectRedirects targets dispatcher c = .ok n c')
    (hends : ∀ index < c.methods.length, ∀ l ∈ (c.instructionsAt index).getLast?,
      Opcode.inverse? l.instruction.opcode = none) :
    injectRedirects targets dispatcher c' = .ok 0 c' := by
  obtain ⟨_, c₁, hget, h₁⟩ := Success.state_bind.mp h
  cases hget
  obtain ⟨calls, c₂, hrun, h₂⟩ := Success.state_bind.mp h₁
  obtain ⟨-, rfl⟩ := Success.state_pure.mp h₂
  have hendsAll : ∀ index ∈ List.range c.methods.length,
      ∀ l ∈ (c.instructionsAt index).getLast?, Opcode.inverse? l.instruction.opcode = none :=
    fun index hindex => hends index (List.mem_range.mp hindex)
  obtain ⟨hrecoded, -⟩ := redirectMethods_eq_ok List.nodup_range hrun hendsAll
  refine injectRedirects_of_quietAt fun index hindex => ?_
  rw [← hrecoded.names.length_eq] at hindex
  exact quietAt_of_redirectMethods List.nodup_range hown hrun hendsAll index
    (List.mem_range.mpr hindex)

end ClassFile

/-! ## The transformer -/

namespace Transformer

open ClassFile

variable {targets : List MethodKey} {dispatcher : Dispatcher}

/-- After redirecting calls in a class, redirecting them in it again does nothing. -/
theorem redirectCalls_again {c c' : ClassFile}
    (hown : ∀ m ∈ ownMethods dispatcher, .ofParts m.owner m.name m.descriptor ∉ targets)
    (hends : ∀ index < c.methods.length, ∀ l ∈ (c.instructionsAt index).getLast?,
      Opcode.inverse? l.instruction.opcode = none)
    (h : redirectCalls dispatcher targets c = .ok () c') :
    redirectCalls dispatcher targets c' = .ok () c' := by
  obtain ⟨name, c₁, hlookup, h₁⟩ := Success.state_bind.mp h
  obtain ⟨hname, rfl⟩ := ClassEdit.check_eq_ok.mp hlookup
  -- the class of the dispatcher itself is left as it is, both times
  by_cases howner : name = dispatcher.owner
  · rw [if_neg (not_not.mpr howner)] at h₁
    cases h₁
    exact h
  · rw [if_pos howner] at h₁
    obtain ⟨n, c₂, hinject, h₂⟩ := Success.state_bind.mp h₁
    cases h₂
    have hconfined := (Confined.keeps_injectRedirects targets dispatcher).of_ok hinject
    refine Success.state_bind.mpr ⟨name, c',
      ClassEdit.check_eq_ok.mpr ⟨hconfined.name_eq hname, rfl⟩, ?_⟩
    rw [if_pos howner]
    exact Success.state_bind.mpr ⟨0, c', injectRedirects_again hown hinject hends, rfl⟩

/-- Where calls of targets have been redirected in an entry, redirecting them again leaves it
unchanged, unless redirected calls call targets themselves. -/
theorem apply_redirect_again {σ : Type} (sink : Sink σ) (name : String) (selection : Selection)
    {entry : Entry} {data : List UInt8} {s s' : σ}
    (hown : ∀ m ∈ ownMethods dispatcher, .ofParts m.owner m.name m.descriptor ∉ targets)
    (hends : ∀ c, ClassFile.parse entry.data = .ok c → ∀ index < c.methods.length,
      ∀ l ∈ (c.instructionsAt index).getLast?, Opcode.inverse? l.instruction.opcode = none)
    (h : (redirect name selection dispatcher targets).apply sink entry s = (.rewritten data, s')) :
    ∀ s, (redirect name selection dispatcher targets).apply sink { entry with data } s =
      (.unchanged, s) := by
  obtain ⟨edit, c, c', hsome, hparse, hparse', hedit⟩ := exists_edit_of_rewritten h
  obtain ⟨-, rfl⟩ := edit?_redirect.mp hsome
  intro s
  exact apply_again hsome hparse' (redirectCalls_again hown (hends c hparse) hedit)

/-- The stored form of a class with a method that calls itself twice. -/
def callingEntry : Entry := ⟨"A.class", twoCalls.toBytes.toOption.getD []⟩

/-- Redirecting all calls of that method. -/
def redirectCalling : Transformer :=
  redirect "calls" ⟨.any, .any⟩ ⟨"H", "h"⟩ [⟨"LA;f(I)V"⟩]

/-- The stored form of the class with the calls redirected. -/
def redirectedCalling : List UInt8 :=
  (editStored callingEntry.data (redirectCalls ⟨"H", "h"⟩ [⟨"LA;f(I)V"⟩])).toOption.getD []

theorem apply_redirect_again_twoCalls :
    (∀ m ∈ ownMethods ⟨"H", "h"⟩, .ofParts m.owner m.name m.descriptor ∉
      ([⟨"LA;f(I)V"⟩] : List MethodKey)) ∧
    (∀ c, ClassFile.parse callingEntry.data = .ok c → ∀ index < c.methods.length,
      ∀ l ∈ (c.instructionsAt index).getLast?, Opcode.inverse? l.instruction.opcode = none) ∧
    ∃ data, redirectCalling.apply .collecting callingEntry [] = (.rewritten data, []) ∧
      redirectCalling.apply .collecting { callingEntry with data } [] = (.unchanged, []) := by
  have hown : ∀ m ∈ ownMethods ⟨"H", "h"⟩, .ofParts m.owner m.name m.descriptor ∉
      ([⟨"LA;f(I)V"⟩] : List MethodKey) := by
    decide +kernel
  have hparse : ClassFile.parse callingEntry.data = .ok twoCalls := by decide +kernel
  have hends : ∀ c, ClassFile.parse callingEntry.data = .ok c → ∀ index < c.methods.length,
      ∀ l ∈ (c.instructionsAt index).getLast?, Opcode.inverse? l.instruction.opcode = none := by
    intro c hc
    obtain rfl : twoCalls = c := Except.ok.inj (hparse.symm.trans hc)
    decide +kernel
  have houtcome : (redirectCalling.apply .collecting callingEntry []).1 =
      .rewritten redirectedCalling := by
    decide +kernel
  have hrewritten : redirectCalling.apply .collecting callingEntry [] =
      (.rewritten redirectedCalling, []) :=
    Prod.ext houtcome rfl
  exact ⟨hown, hends, _, hrewritten, apply_redirect_again _ _ _ hown hends hrewritten []⟩

end Transformer

end ClassPatch
