import Mathlib
import ClassPatch.Proofs.Code.Layout
import ClassPatch.Proofs.Code.Targets
import ClassPatch.Proofs.Redirect.Plan

/-!
# Redirected nodes

Which calls are redirected, and what the nodes of a method become. The constant pool grows
while the nodes are gone through; everything is said about the pool at the end, in which
all indices that were followed on the way lead to the same.
-/

namespace ClassPatch.Redirect

open Code

variable {τ υ : Type} {pool later : ConstantPool} {targets : List MethodKey}

/-! ## Calls of targets -/

/-- The key of the method that an instruction calls, none for superclass methods and
constructors. -/
def calledKey? (pool : ConstantPool) (i : Instruction τ) : Option MethodKey :=
  if i.opcode = Opcode.invokespecial then none
  else i.invoked?.bind fun index => (pool.getMember index).toOption.map fun m =>
    .ofParts m.owner m.name m.descriptor

/-- Whether an instruction calls a target. -/
def isTarget (pool : ConstantPool) (targets : List MethodKey) (i : Instruction τ) : Bool :=
  (calledKey? pool i).any targets.contains

/-- The call that an instruction makes. -/
def Calls (pool : ConstantPool) (i : Instruction τ) (call : Call) : Prop :=
  calledKey? pool i = some call.key ∧
    call.isStatic = decide (i.opcode = Opcode.invokestatic) ∧
    ∃ index m, i.invoked? = some index ∧ pool.getMember index = .ok m ∧
      MethodDescriptor.parse m.descriptor = .ok call.descriptor

theorem calledKey?_eq_none {i : Instruction τ}
    (h : i.opcode = Opcode.invokespecial ∨ i.invoked? = none) : calledKey? pool i = none := by
  unfold calledKey?
  rcases h with hspecial | hnone
  · rw [if_pos hspecial]
  · rw [hnone]
    exact ite_self none

theorem calledKey?_eq_some {i : Instruction τ} {index : UInt16} {m : MemberRef}
    (hspecial : i.opcode ≠ Opcode.invokespecial) (hindex : i.invoked? = some index)
    (hm : pool.getMember index = .ok m) :
    calledKey? pool i = some (.ofParts m.owner m.name m.descriptor) := by
  unfold calledKey?
  rw [if_neg hspecial, hindex, Option.bind_some, hm]
  rfl

theorem calledKey?_mapTargetsM {i : Instruction τ} {j : Instruction υ} {f : τ → Option υ}
    (h : i.mapTargetsM f = some j) : calledKey? pool j = calledKey? pool i := by
  unfold calledKey?
  rw [Instruction.invoked?_mapTargetsM h, (Instruction.mapTargetsM_eq_some.mp h).1]

theorem isTarget_mapTargetsM {i : Instruction τ} {j : Instruction υ} {f : τ → Option υ}
    (h : i.mapTargetsM f = some j) : isTarget pool targets j = isTarget pool targets i := by
  rw [isTarget, calledKey?_mapTargetsM h, isTarget]

theorem Calls.mapTargetsM {i : Instruction τ} {j : Instruction υ} {f : τ → Option υ} {call : Call}
    (hcalls : Calls pool j call) (h : i.mapTargetsM f = some j) : Calls pool i call := by
  unfold Calls at hcalls ⊢
  rwa [calledKey?_mapTargetsM h, Instruction.invoked?_mapTargetsM h,
    (Instruction.mapTargetsM_eq_some.mp h).1] at hcalls

/-- A call whose index resolves keeps its key. -/
theorem calledKey?_grows {i : Instruction τ} {key : MethodKey} (hgrows : pool.Grows later)
    (h : calledKey? pool i = some key) : calledKey? later i = some key := by
  unfold calledKey? at h ⊢
  by_cases hspecial : i.opcode = Opcode.invokespecial
  · rw [if_pos hspecial] at h
    cases h
  rw [if_neg hspecial] at h ⊢
  obtain ⟨index, hindex, h⟩ := Option.bind_eq_some_iff.mp h
  rw [hindex, Option.bind_some]
  cases hm : pool.getMember index with
  | error e =>
    rw [hm] at h
    cases h
  | ok m =>
    rw [hm] at h
    rwa [hgrows.getMember hm]

/-- What the test of a node says about its instruction, in the pool and in all later ones. -/
theorem matchCall?_eq_ok {i : Instruction Label} {call? : Option Call}
    (h : matchCall? pool targets (.instruction i) = .ok call?) (hgrows : pool.Grows later) :
    isTarget later targets i = call?.isSome ∧ ∀ call ∈ call?, Calls later i call := by
  have hnone (hkey : calledKey? later i = none) (hcall : call? = none) :
      isTarget later targets i = call?.isSome ∧ ∀ call ∈ call?, Calls later i call := by
    rw [isTarget, hkey, hcall]
    exact ⟨rfl, fun call hmem => by cases hmem⟩
  unfold matchCall? at h
  dsimp only at h
  by_cases hspecial : i.opcode = Opcode.invokespecial
  · rw [if_pos hspecial] at h
    cases h
    exact hnone (calledKey?_eq_none (.inl hspecial)) rfl
  rw [if_neg hspecial] at h
  cases hindex : i.invoked? with
  | none =>
    rw [hindex] at h
    cases h
    exact hnone (calledKey?_eq_none (.inr hindex)) rfl
  | some index =>
    rw [hindex] at h
    obtain ⟨m, hm, h⟩ := Success.except_bind.mp h
    have hkey := calledKey?_eq_some hspecial hindex (hgrows.getMember hm)
    cases htarget : targets.contains (MethodKey.ofParts m.owner m.name m.descriptor) with
    | false =>
      rw [htarget] at h
      cases h
      rw [isTarget, hkey]
      exact ⟨htarget, fun call hmem => by cases hmem⟩
    | true =>
      rw [htarget, if_pos rfl] at h
      obtain ⟨descriptor, hdescriptor, h⟩ := Success.except_bind.mp h
      cases h
      rw [isTarget, hkey]
      refine ⟨htarget, fun call hmem => ?_⟩
      cases hmem
      exact ⟨hkey, rfl, index, m, hindex, hgrows.getMember hm, hdescriptor⟩

/-! ## Going through the nodes -/

/-- What a node becomes. -/
inductive Replaced (site : Site) (targets : List MethodKey) (pool : ConstantPool) :
    Node → List Node → Prop
  | label {label : Label} : Replaced site targets pool (.label label) [.label label]
  | kept {i : Instruction Label} :
      isTarget pool targets i = false → Replaced site targets pool (.instruction i) [.instruction i]
  | redirected {i : Instruction Label} {call : Call} {before after : ConstantPool}
        {replaced : Sequence} :
      isTarget pool targets i = true → Calls pool i call →
      sequence site call before = .ok replaced after → after.Grows pool →
      Replaced site targets pool (.instruction i) (replaced.instructions.map .instruction)

/-- The calls of targets among nodes. -/
def targetCount (pool : ConstantPool) (targets : List MethodKey) (nodes : List Node) : Nat :=
  (nodes.filterMap Node.instruction?).countP (isTarget pool targets)

theorem targetCount_cons {i : Instruction Label} {nodes : List Node} :
    targetCount pool targets (.instruction i :: nodes) =
      targetCount pool targets nodes + (isTarget pool targets i).toNat := by
  unfold targetCount
  rw [List.filterMap_cons_some (show (Node.instruction i).instruction? = some i from rfl),
    List.countP_cons]
  cases isTarget pool targets i <;> rfl

/-- A node is kept, or its call is replaced by a sequence. -/
theorem redirectNodes_cons_eq_ok {site : Site} {acc r : Rewritten} {node : Node}
    {nodes : List Node} {pool' : ConstantPool}
    (h : redirectNodes site targets acc (node :: nodes) pool = .ok r pool') :
    (matchCall? pool targets node = .ok none ∧
      redirectNodes site targets { acc with nodes := node :: acc.nodes } nodes pool = .ok r pool') ∨
    ∃ call replaced pool₁, matchCall? pool targets node = .ok (some call) ∧
      sequence site call pool = .ok replaced pool₁ ∧
      redirectNodes site targets
        { nodes := (replaced.instructions.map Node.instruction).reverse ++ acc.nodes
          calls := acc.calls + 1
          used := max acc.used replaced.used } nodes pool₁ = .ok r pool' := by
  rw [redirectNodes] at h
  obtain ⟨_, _, hget, h⟩ := Success.state_bind.mp h
  cases hget
  obtain ⟨call?, _, hmatch, h⟩ := Success.state_bind.mp h
  obtain ⟨hmatch, rfl⟩ := PoolEdit.ofExcept_eq_ok.mp hmatch
  cases call? with
  | none => exact .inl ⟨hmatch, h⟩
  | some call =>
    obtain ⟨replaced, pool₁, hsequence, h⟩ := Success.state_bind.mp h
    exact .inr ⟨call, replaced, pool₁, hmatch, hsequence, h⟩

/-- A node without a call to redirect is kept, and counts for nothing. -/
theorem replaced_of_matchCall?_none {site : Site} {node : Node} (nodes : List Node)
    (h : matchCall? pool targets node = .ok none) (hgrows : pool.Grows later) :
    Replaced site targets later node [node] ∧
      targetCount later targets (node :: nodes) = targetCount later targets nodes := by
  cases node with
  | label label => exact ⟨.label, rfl⟩
  | instruction i =>
    have htarget : isTarget later targets i = false := (matchCall?_eq_ok h hgrows).1
    refine ⟨.kept htarget, ?_⟩
    rw [targetCount_cons, htarget]
    rfl

theorem redirectNodes_eq_ok {site : Site} {acc r : Rewritten} {nodes : List Node}
    {pool' : ConstantPool} (h : redirectNodes site targets acc nodes pool = .ok r pool') :
    pool.Grows pool' ∧ ∀ later, pool'.Grows later → ∃ groups,
      List.Forall₂ (Replaced site targets later) nodes groups ∧
      r.nodes = acc.nodes.reverse ++ groups.flatten ∧
      r.calls = acc.calls + targetCount later targets nodes := by
  induction nodes generalizing acc pool with
  | nil =>
    obtain ⟨rfl, rfl⟩ := Success.state_pure.mp h
    exact ⟨.refl _, fun later _ => ⟨[], .nil, (List.append_nil _).symm, rfl⟩⟩
  | cons node nodes ih =>
    rcases redirectNodes_cons_eq_ok h with
      ⟨hmatch, hnext⟩ | ⟨call, replaced, pool₁, hmatch, hsequence, hnext⟩
    · obtain ⟨hgrows, hrest⟩ := ih hnext
      refine ⟨hgrows, fun later hlater => ?_⟩
      obtain ⟨groups, hgroups, hnodes, hcalls⟩ := hrest later hlater
      obtain ⟨hkept, hcount⟩ := replaced_of_matchCall?_none nodes hmatch (hgrows.trans hlater)
      refine ⟨[node] :: groups, .cons hkept hgroups, ?_, ?_⟩
      · rw [hnodes, List.reverse_cons, List.append_assoc, List.flatten_cons]
      · rw [hcalls, hcount]
    · cases node with
      | label label => cases hmatch
      | instruction i =>
        obtain ⟨hgrows, hrest⟩ := ih hnext
        have hgrows₁ := (yields_sequence site call _ replaced pool₁ hsequence).1
        refine ⟨hgrows₁.trans hgrows, fun later hlater => ?_⟩
        obtain ⟨groups, hgroups, hnodes, hcalls⟩ := hrest later hlater
        obtain ⟨htarget, hcall⟩ := matchCall?_eq_ok hmatch (hgrows₁.trans (hgrows.trans hlater))
        refine ⟨replaced.instructions.map .instruction :: groups,
          .cons (.redirected htarget (hcall call rfl) hsequence (hgrows.trans hlater)) hgroups, ?_, ?_⟩
        · rw [hnodes, List.reverse_append, List.reverse_reverse, List.append_assoc,
            List.flatten_cons]
        · rw [hcalls, targetCount_cons, htarget]
          exact Nat.add_right_comm _ _ _

end ClassPatch.Redirect
