import Mathlib
import ClassPatch.Proofs.ClassFile.Edit
import ClassPatch.Proofs.MethodBody.Encode
import ClassPatch.Proofs.Redirect.Blocks

/-!
# Redirecting in one method

What the code of a method becomes, from decoding it to storing it back, and what else of
the class stays as it was.
-/

namespace ClassPatch

open Code Redirect

/-! ## Edits of code -/

/-- A method with its name, descriptor and flags. -/
def Member.SameNames (m m' : Member) : Prop :=
  m'.access = m.access ∧ m'.nameIndex = m.nameIndex ∧ m'.descriptorIndex = m.descriptorIndex

namespace ClassFile

variable {targets : List MethodKey} {dispatcher : Dispatcher} {c c' : ClassFile} {index : Nat}

/-- An edit that only gives methods other code: all else of the class stays, and constants
are only added. -/
structure Recoded (c c' : ClassFile) : Prop where
  frame : c' = { c with pool := c'.pool, methods := c'.methods }
  grows : c.pool.Grows c'.pool
  codeName : SameCodeName c.pool c'.pool
  names : List.Forall₂ Member.SameNames c.methods c'.methods

theorem Recoded.trans {c'' : ClassFile} (h : c.Recoded c') (h' : c'.Recoded c'') :
    c.Recoded c'' where
  frame := by rw [h'.frame, h.frame]
  grows := h.grows.trans h'.grows
  codeName := h.codeName.trans h'.codeName
  names := (forall₂_comp h.names h'.names).imp fun m m'' hm => by
    obtain ⟨m', ⟨haccess, hname, hdescriptor⟩, haccess', hname', hdescriptor'⟩ := hm
    exact ⟨haccess'.trans haccess, hname'.trans hname, hdescriptor'.trans hdescriptor⟩

theorem Recoded.majorVersion (h : c.Recoded c') : c'.majorVersion = c.majorVersion := by
  rw [h.frame]

theorem forall₂_sameNames_self (ms : List Member) : List.Forall₂ Member.SameNames ms ms :=
  List.forall₂_same.mpr fun _ _ => ⟨rfl, rfl, rfl⟩

theorem Recoded.of_pool {pool : ConstantPool} (hgrows : c.pool.Grows pool)
    (hname : SameCodeName c.pool pool) : c.Recoded { c with pool } where
  frame := rfl
  grows := hgrows
  codeName := hname
  names := forall₂_sameNames_self _

theorem Recoded.refl (c : ClassFile) : c.Recoded c := .of_pool (.refl _) (.refl _)

/-! ## Instructions of methods -/

/-- The instructions of a method, none without code that can be read. -/
def instructionsAt (c : ClassFile) (index : Nat) : List (Located Nat) :=
  match c.methodCode index with
  | .ok (some code) => (disassemble code.code).toOption.getD []
  | _ => []

theorem instructionsAt_of_code {code : CodeAttribute} {read : List (Located Nat)}
    (hcode : c.methodCode index = .ok (some code)) (hread : disassemble code.code = .ok read) :
    c.instructionsAt index = read := by
  unfold instructionsAt
  rw [hcode]
  dsimp only
  rw [hread]
  rfl

theorem Recoded.methodCode_eq (h : c.Recoded c')
    (hmethod : c'.methods[index]? = c.methods[index]?) :
    c'.methodCode index = c.methodCode index :=
  methodCode_congr h.codeName hmethod

theorem Recoded.instructionsAt_eq (h : c.Recoded c')
    (hmethod : c'.methods[index]? = c.methods[index]?) :
    c'.instructionsAt index = c.instructionsAt index := by
  rw [instructionsAt, h.methodCode_eq hmethod, instructionsAt]

/-- The number of calls of targets in a method. -/
def targetCalls (pool : ConstantPool) (targets : List MethodKey) (c : ClassFile) (index : Nat) :
    Nat :=
  (c.instructionsAt index).countP fun l => isTarget pool targets l.instruction

/-- What redirecting makes of a method: nothing without calls of targets, and otherwise code with
a block for every instruction. -/
inductive Redirected (dispatcher : Dispatcher) (targets : List MethodKey) (pool : ConstantPool)
    (c c' : ClassFile) (index : Nat) : Prop
  | untouched :
      (∀ l ∈ c.instructionsAt index, isTarget pool targets l.instruction = false) →
      c'.methods[index]? = c.methods[index]? →
      Redirected dispatcher targets pool c c' index
  | rewritten {code code' : CodeAttribute} {blocks : List (List (Located Nat))}
        {moved : Nat → Nat} :
      (∃ l ∈ c.instructionsAt index, isTarget pool targets l.instruction = true) →
      c.methodCode index = .ok (some code) →
      c'.methodCode index = .ok (some code') →
      disassemble code'.code = .ok blocks.flatten →
      List.Forall₂ (Becomes { scratch := code.maxLocals, majorVersion := c.majorVersion, dispatcher }
        targets pool moved) (c.instructionsAt index) blocks →
      (∀ l ∈ c.instructionsAt index, ∀ target ∈ l.instruction.targets,
        ∃ l' ∈ c.instructionsAt index, l'.offset = target) →
      Redirected dispatcher targets pool c c' index

end ClassFile

/-! ## Code of one method -/

namespace Redirect

variable {site : Site} {targets : List MethodKey} {pool : ConstantPool}

theorem Kept.head?_eq {moved : Nat → Nat} {l : Located Nat} {block : List (Located Nat)}
    (h : Kept moved l block) : block.head?.map (·.offset) = some (moved l.offset) := by
  cases h <;> rfl

/-- A block starts where its instruction is moved to. -/
theorem Becomes.head?_eq {moved : Nat → Nat} {l : Located Nat} {block : List (Located Nat)}
    (h : Becomes site targets pool moved l block) :
    block.head?.map (·.offset) = some (moved l.offset) := by
  cases h with
  | kept _ hkept => exact hkept.head?_eq
  | redirected _ _ _ _ _ _ _ hhead => exact hhead

theorem filterMap_labelNodes (labels : LabelMap) (offset : Nat) :
    (labelNodes labels offset).filterMap Node.instruction? = [] := by
  unfold labelNodes
  cases labels.get? offset <;> rfl

theorem filterMap_labelledNodes (labels : LabelMap) (found : List (Located Label)) :
    (labelledNodes labels found).filterMap Node.instruction? = found.map (·.instruction) := by
  induction found with
  | nil => rfl
  | cons l found ih =>
    rw [labelledNodes, List.flatMap_cons, ← labelledNodes, List.filterMap_append,
      List.filterMap_append, filterMap_labelNodes, ih]
    rfl

/-- Calls of targets among the nodes of a body are those in its code. -/
theorem targetCount_nodes {code : CodeAttribute} {body : MethodBody} {read : List (Located Nat)}
    {found : List (Located Label)} (h : MethodBody.Decoded code body read found) :
    targetCount pool targets body.nodes =
      read.countP fun l => isTarget pool targets l.instruction := by
  rw [h.nodes_eq, targetCount, List.filterMap_append, filterMap_labelledNodes,
    filterMap_labelNodes, List.append_nil, List.countP_map]
  have hlabels := h.labels
  clear h
  induction hlabels with
  | nil => rfl
  | cons hlabels _ ih =>
    rw [List.countP_cons, List.countP_cons, ih, Function.comp_apply,
      isTarget_mapTargetsM hlabels.2]

/-- The code of a body after redirecting has a block for every instruction from before. -/
theorem exists_becomes_of_encode {code code' : CodeAttribute} {body widened : MethodBody}
    {read : List (Located Nat)} {found : List (Located Label)} {r : Rewritten}
    {pool₁ pool₂ pool₃ : ConstantPool} (hbody : MethodBody.Decoded code body read found)
    (hends : ∀ l ∈ read.getLast?, Opcode.inverse? l.instruction.opcode = none) (hne : read ≠ [])
    (hnodes : redirectNodes site targets { nodes := [], calls := 0, used := 0 } body.nodes pool₁ =
      .ok r pool₂)
    (hwiden : widenBody body r = .ok widened) (hencode : widened.encode pool₂ = .ok code' pool₃)
    (hgrows : pool₃.Grows pool) :
    ∃ blocks moved, disassemble code'.code = .ok blocks.flatten ∧
      List.Forall₂ (Becomes site targets pool moved) read blocks := by
  obtain ⟨hgrows₃, hlaidOut⟩ := MethodBody.yields_encode _ _ _ _ hencode
  obtain ⟨result, hencoded⟩ := hlaidOut pool hgrows
  have hencodeWith := hencoded.layout
  obtain ⟨-, hreplaced⟩ := redirectNodes_eq_ok hnodes
  obtain ⟨groups, hgroups, hflat, -⟩ := hreplaced pool (hgrows₃.trans hgrows)
  rw [hbody.nodes_eq] at hgroups
  obtain ⟨bodies, hbodies, hgroupNodes⟩ := exists_groups hgroups
  have hwidened : widened.nodes = r.nodes := by
    unfold widenBody at hwiden
    split at hwiden
    · cases hwiden
    · cases hwiden
      rfl
  rw [hwidened, hflat, List.reverse_nil, List.nil_append, hgroupNodes] at hencodeWith
  have hstored := disassemble_eq_ok.mp hbody.disassemble_eq
  have hclosed := closed_groupNodes hbody.labels hbody.distinct (target_lt_of_sequence hstored)
    hends hbodies fun hempty => hne (by
      rw [hempty] at hbody
      exact List.forall₂_nil_right_iff.mp hbody.labels)
  obtain ⟨new, hnew, hlaid⟩ := disassemble_encodeWith hencodeWith hclosed
  obtain ⟨blocks, rfl, hblocks⟩ := exists_blocks hbodies hlaid
  obtain ⟨moved, hbecomes⟩ := exists_becomes hstored hbody.target_mem hbody.labels hblocks
  exact ⟨blocks, moved, hencoded.code_eq ▸ hnew, hbecomes⟩

/-- Code with blocks is not empty. -/
theorem ne_nil_of_becomes {moved : Nat → Nat} {new : List UInt8} {read : List (Located Nat)}
    {blocks : List (List (Located Nat))} (hnew : disassemble new = .ok blocks.flatten)
    (h : List.Forall₂ (Becomes site targets pool moved) read blocks) (hne : read ≠ []) :
    new ≠ [] := by
  rintro rfl
  obtain ⟨l, read, rfl⟩ := List.exists_cons_of_ne_nil hne
  obtain ⟨block, blocks, hblock, -, rfl⟩ := List.forall₂_cons_left_iff.mp h
  have hempty : disassemble [] = .ok [] := disassemble_eq_ok.mpr .nil
  rw [hempty] at hnew
  have hflat := List.flatten_eq_nil_iff.mp (Except.ok.inj hnew).symm block List.mem_cons_self
  have hhead := hblock.head?_eq
  rw [hflat] at hhead
  cases hhead

end Redirect

/-! ## The method -/

namespace ClassFile

variable {targets : List MethodKey} {dispatcher : Dispatcher} {c c' : ClassFile} {index n : Nat}

/-- The ways in which redirecting in a method succeeds: without code, without calls of targets,
or by storing other code. -/
theorem redirectMethod_cases (h : redirectMethod targets dispatcher index c = .ok n c') :
    (c.methodCode index = .ok none ∧ n = 0 ∧ c' = c) ∨
      ∃ code body r pool, c.methodCode index = .ok (some code) ∧
        MethodBody.decode c.pool code = .ok body ∧
        redirectNodes { scratch := body.maxLocals, majorVersion := c.majorVersion, dispatcher }
          targets { nodes := [], calls := 0, used := 0 } body.nodes c.pool = .ok r pool ∧
        n = r.calls ∧
        ((r.calls = 0 ∧ c' = { c with pool }) ∨
          (r.calls ≠ 0 ∧ ∃ widened code' encoded, widenBody body r = .ok widened ∧
            widened.encode pool = .ok code' encoded ∧
            setMethodCode index code' { c with pool := encoded } = .ok () c')) := by
  obtain ⟨code?, c₁, hlookup, h₁⟩ := Success.state_bind.mp h
  obtain ⟨hcode, rfl⟩ := ClassEdit.check_eq_ok.mp hlookup
  cases code? with
  | none =>
    obtain ⟨rfl, rfl⟩ := Success.state_pure.mp h₁
    exact .inl ⟨hcode, rfl, rfl⟩
  | some code =>
    right
    obtain ⟨body, c₂, hdecode, h₂⟩ := Success.state_bind.mp h₁
    obtain ⟨hbody, rfl⟩ := ClassEdit.check_eq_ok.mp hdecode
    obtain ⟨_, c₃, hget, h₃⟩ := Success.state_bind.mp h₂
    cases hget
    obtain ⟨r, c₄, hredirect, h₄⟩ := Success.state_bind.mp h₃
    obtain ⟨pool, hnodes, rfl⟩ := ClassEdit.onPool_eq_ok.mp hredirect
    by_cases hcalls : r.calls = 0
    · rw [if_pos hcalls] at h₄
      obtain ⟨rfl, rfl⟩ := Success.state_pure.mp h₄
      exact ⟨code, body, r, pool, hcode, hbody, hnodes, hcalls.symm, .inl ⟨hcalls, rfl⟩⟩
    · rw [if_neg hcalls] at h₄
      obtain ⟨widened, c₅, hroom, h₅⟩ := Success.state_bind.mp h₄
      obtain ⟨hwiden, rfl⟩ := ClassEdit.check_eq_ok.mp hroom
      obtain ⟨code', c₆, hlayout, h₆⟩ := Success.state_bind.mp h₅
      obtain ⟨encoded, hencode, rfl⟩ := ClassEdit.onPool_eq_ok.mp hlayout
      obtain ⟨_, c₇, hset, h₇⟩ := Success.state_bind.mp h₆
      obtain ⟨rfl, rfl⟩ := Success.state_pure.mp h₇
      exact ⟨code, body, r, pool, hcode, hbody, hnodes, rfl,
        .inr ⟨hcalls, widened, code', encoded, hwiden, hencode, hset⟩⟩

/-- Redirecting in a method leaves all other methods alone, and gives the number of its calls of
targets. -/
theorem redirectMethod_eq_ok (h : redirectMethod targets dispatcher index c = .ok n c')
    (hends : ∀ l ∈ (c.instructionsAt index).getLast?, Opcode.inverse? l.instruction.opcode = none) :
    c.Recoded c' ∧ (∀ other, other ≠ index → c'.methods[other]? = c.methods[other]?) ∧
      ∀ later, c'.pool.Grows later → n = targetCalls later targets c index ∧
        Redirected dispatcher targets later c c' index := by
  obtain ⟨hnone, rfl, rfl⟩ | ⟨code, body, r, pool, hcode, hbody, hnodes, rfl, hrest⟩ :=
    redirectMethod_cases h
  · have hempty : c'.instructionsAt index = [] := by rw [instructionsAt, hnone]
    refine ⟨.refl c', fun other _ => rfl, fun later _ => ⟨?_, .untouched ?_ rfl⟩⟩
    · rw [targetCalls, hempty, List.countP_nil]
    · intro l hl
      rw [hempty] at hl
      cases hl
  · obtain ⟨read, found, _, hdecoded, -, -⟩ := MethodBody.decode_eq_ok hbody
    have hread := instructionsAt_of_code hcode hdecoded.disassemble_eq
    rw [hdecoded.maxLocals_eq] at hnodes
    rw [hread] at hends
    obtain ⟨hgrows, hreplaced⟩ := redirectNodes_eq_ok hnodes
    have hcount : ∀ later, pool.Grows later → r.calls = targetCalls later targets c index := by
      intro later hlater
      obtain ⟨groups, -, -, hcalls⟩ := hreplaced later hlater
      rw [hcalls, targetCount_nodes hdecoded, Nat.zero_add, targetCalls, hread]
    rcases hrest with ⟨hcalls, rfl⟩ | ⟨hcalls, widened, code', encoded, hwiden, hencode, hset⟩
    · refine ⟨.of_pool hgrows (sameCodeName_of_methodCode hcode hgrows), fun other _ => rfl,
        fun later hlater => ⟨hcount later hlater, .untouched (fun l hl => ?_) rfl⟩⟩
      have hnot := List.countP_eq_zero.mp ((hcount later hlater).symm.trans hcalls) l hl
      exact Bool.not_eq_true _ ▸ hnot
    · obtain ⟨data, nameIndex, stored, hdata, hintern, -, rfl⟩ := setMethodCode_eq_ok.mp hset
      have hencoded := (MethodBody.yields_encode _ _ _ _ hencode).1
      have hstored := (ConstantPool.yields_internText _ _ _ _ hintern).1
      have hall := hgrows.trans (hencoded.trans hstored)
      have hname := sameCodeName_of_methodCode hcode hall
      have hne : read ≠ [] := by
        rintro rfl
        exact hcalls (by rw [hcount pool (.refl pool), targetCalls, hread, List.countP_nil])
      refine ⟨⟨rfl, hall, hname, forall₂_modify (fun _ => ⟨rfl, rfl, rfl⟩) (putCode_names _ _ _) _ _⟩,
        fun other hother => List.getElem?_modify_ne _ _ (Ne.symm hother), fun later hlater => ?_⟩
      have hcalled := hcount later (hencoded.trans (hstored.trans hlater))
      obtain ⟨blocks, moved, hnew, hbecomes⟩ := exists_becomes_of_encode hdecoded hends hne hnodes
        hwiden hencode (hstored.trans hlater)
      have hcode' := ne_nil_of_becomes hnew hbecomes hne
      refine ⟨hcalled, .rewritten ?_ hcode (methodCode_putCode hcode hname rfl hdata hcode') hnew
        (hread ▸ hbecomes) (hread ▸ hdecoded.target_mem)⟩
      rw [targetCalls] at hcalled
      exact List.countP_pos_iff.mp (hcalled ▸ Nat.pos_of_ne_zero hcalls)

end ClassFile

end ClassPatch
