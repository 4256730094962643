import Mathlib
import ClassPatch.Proofs.MethodBody.Edited
import ClassPatch.Proofs.Redirect.Blocks

/-!
# Quiet instructions

Instructions that are left as they are when calls are redirected: they call nothing, or something
known that is not a target. Instructions that were not redirected are quiet, and so are those in
place of a redirected call, as long as what these call themselves is not a target.
-/

namespace ClassPatch.Redirect

open Code Machine

variable {τ υ : Type} {pool later : ConstantPool} {targets : List MethodKey}

/-! ## Known calls -/

/-- What the instruction calls, if anything, is in the pool. -/
def Known (pool : ConstantPool) (i : Instruction τ) : Prop :=
  i.opcode = Opcode.invokespecial ∨
    ∀ index, i.invoked? = some index → ∃ m, pool.getMember index = .ok m

theorem Known.grows {i : Instruction τ} (hgrows : pool.Grows later) (h : Known pool i) :
    Known later i :=
  h.imp id fun hknown index hindex =>
    let ⟨m, hm⟩ := hknown index hindex
    ⟨m, hgrows.getMember hm⟩

theorem known_mapTargetsM {i : Instruction τ} {j : Instruction υ} {f : τ → Option υ}
    (h : i.mapTargetsM f = some j) : Known pool j ↔ Known pool i := by
  rw [Known, Known, Instruction.invoked?_mapTargetsM h, (Instruction.mapTargetsM_eq_some.mp h).1]

theorem known_of_matchCall? {i : Instruction Label} {call? : Option Call}
    (h : matchCall? pool targets (.instruction i) = .ok call?) : Known pool i := by
  by_cases hspecial : i.opcode = Opcode.invokespecial
  · exact .inl hspecial
  · refine .inr fun index hindex => ?_
    unfold matchCall? at h
    dsimp only at h
    rw [if_neg hspecial, hindex] at h
    obtain ⟨m, hm, -⟩ := Success.except_bind.mp h
    exact ⟨m, hm⟩

/-- The instructions that were gone through are known. -/
theorem known_of_redirectNodes {site : Site} {acc r : Rewritten} {nodes : List Node}
    {pool' : ConstantPool} (h : redirectNodes site targets acc nodes pool = .ok r pool') :
    ∀ i, .instruction i ∈ nodes → Known pool' i := by
  induction nodes generalizing acc pool with
  | nil =>
    intro i hi
    cases hi
  | cons node nodes ih =>
    have hgrows := (redirectNodes_eq_ok h).1
    obtain ⟨⟨call?, hmatch⟩, hrest⟩ : (∃ call?, matchCall? pool targets node = .ok call?) ∧
        ∀ i, .instruction i ∈ nodes → Known pool' i := by
      rcases redirectNodes_cons_eq_ok h with
        ⟨hmatch, hnext⟩ | ⟨_, _, _, hmatch, -, hnext⟩
      · exact ⟨⟨_, hmatch⟩, ih hnext⟩
      · exact ⟨⟨_, hmatch⟩, ih hnext⟩
    intro i hi
    rcases List.mem_cons.mp hi with rfl | hi
    · exact (known_of_matchCall? hmatch).grows hgrows
    · exact hrest i hi

/-! ## Quiet instructions -/

/-- The instruction calls nothing, or something known that is not a target. -/
structure Quiet (pool : ConstantPool) (targets : List MethodKey) (i : Instruction τ) : Prop where
  known : Known pool i
  not_target : isTarget pool targets i = false

theorem quiet_of_invokespecial {i : Instruction τ} (h : i.opcode = Opcode.invokespecial) :
    Quiet pool targets i := by
  refine ⟨.inl h, ?_⟩
  rw [isTarget, calledKey?_eq_none (.inl h)]
  rfl

theorem quiet_of_invoked?_eq_none {i : Instruction τ} (h : i.invoked? = none) :
    Quiet pool targets i := by
  refine ⟨.inr fun index hindex => ?_, ?_⟩
  · rw [h] at hindex
    cases hindex
  · rw [isTarget, calledKey?_eq_none (.inr h)]
    rfl

theorem quiet_of_not_mem {i : Instruction τ} {index : UInt16} {m : MemberRef}
    (hindex : i.invoked? = some index) (hm : pool.getMember index = .ok m)
    (hkey : .ofParts m.owner m.name m.descriptor ∉ targets) : Quiet pool targets i := by
  by_cases hspecial : i.opcode = Opcode.invokespecial
  · exact quiet_of_invokespecial hspecial
  refine ⟨.inr fun other hother => ?_, ?_⟩
  · rw [hindex] at hother
    cases hother
    exact ⟨m, hm⟩
  · rw [isTarget, calledKey?_eq_some hspecial hindex hm, Option.any_some]
    simpa using hkey

theorem Quiet.cases {i : Instruction τ} (h : Quiet pool targets i) :
    i.opcode = Opcode.invokespecial ∨ i.opcode ≠ Opcode.invokespecial ∧ (i.invoked? = none ∨
      ∃ index m, i.invoked? = some index ∧ pool.getMember index = .ok m ∧
        .ofParts m.owner m.name m.descriptor ∉ targets) := by
  by_cases hspecial : i.opcode = Opcode.invokespecial
  · exact .inl hspecial
  refine .inr ⟨hspecial, ?_⟩
  cases hindex : i.invoked? with
  | none => exact .inl rfl
  | some index =>
    obtain ⟨m, hm⟩ := h.known.resolve_left hspecial index hindex
    have hnot := h.not_target
    rw [isTarget, calledKey?_eq_some hspecial hindex hm, Option.any_some] at hnot
    exact .inr ⟨index, m, rfl, hm, by simpa using hnot⟩

theorem Quiet.grows {i : Instruction τ} (hgrows : pool.Grows later) (h : Quiet pool targets i) :
    Quiet later targets i := by
  rcases h.cases with hspecial | ⟨-, hnone | ⟨index, m, hindex, hm, hkey⟩⟩
  · exact quiet_of_invokespecial hspecial
  · exact quiet_of_invoked?_eq_none hnone
  · exact quiet_of_not_mem hindex (hgrows.getMember hm) hkey

theorem Quiet.mapTargetsM {i : Instruction τ} {j : Instruction υ} {f : τ → Option υ}
    (hquiet : Quiet pool targets i) (h : i.mapTargetsM f = some j) : Quiet pool targets j :=
  ⟨(known_mapTargetsM h).mpr hquiet.known, isTarget_mapTargetsM h ▸ hquiet.not_target⟩

theorem matchCall?_of_quiet {i : Instruction Label} (h : Quiet pool targets i) :
    matchCall? pool targets (.instruction i) = .ok none := by
  unfold matchCall?
  dsimp only
  rcases h.cases with hspecial | ⟨hspecial, hnone | ⟨index, m, hindex, hm, hkey⟩⟩
  · rw [if_pos hspecial]
  · rw [if_neg hspecial, hnone]
  · rw [if_neg hspecial, hindex]
    refine Success.except_bind.mpr ⟨m, hm, ?_⟩
    rw [if_neg (by simpa using hkey)]
    rfl

/-- Quiet nodes stay as they are, and so does the pool. -/
theorem redirectNodes_of_quiet {site : Site} {acc : Rewritten} {nodes : List Node}
    (h : ∀ i, .instruction i ∈ nodes → Quiet pool targets i) :
    redirectNodes site targets acc nodes pool =
      .ok { acc with nodes := acc.nodes.reverse ++ nodes } pool := by
  induction nodes generalizing acc with
  | nil =>
    rw [List.append_nil]
    rfl
  | cons node nodes ih =>
    have hmatch : matchCall? pool targets node = .ok none := by
      cases node with
      | label label => rfl
      | instruction i => exact matchCall?_of_quiet (h i List.mem_cons_self)
    refine Success.state_bind.mpr ⟨pool, pool, rfl, Success.state_bind.mpr
      ⟨none, pool, PoolEdit.ofExcept_eq_ok.mpr ⟨hmatch, rfl⟩, ?_⟩⟩
    dsimp only
    rw [ih fun i hi => h i (List.mem_cons_of_mem node hi), List.reverse_cons, List.append_assoc]
    rfl

/-! ## What redirected calls call -/

/-- The methods that the instructions of redirected calls call themselves. -/
def ownMethods (dispatcher : Dispatcher) : List MemberRef :=
  [forName, dispatchMethod dispatcher] ++
    [FieldType.byte, .char, .double, .float, .int, .long, .short, .boolean].flatMap fun type =>
      (type.wrapper?.map fun wrapper => [boxMethod type wrapper, unboxMethod type wrapper]).getD []

theorem wrapped_mem_ownMethods {dispatcher : Dispatcher} {type : FieldType} {wrapper : Wrapper}
    (h : type.wrapper? = some wrapper) :
    boxMethod type wrapper ∈ ownMethods dispatcher ∧
      unboxMethod type wrapper ∈ ownMethods dispatcher := by
  have hmem : [boxMethod type wrapper, unboxMethod type wrapper] =
      (type.wrapper?.map fun wrapper => [boxMethod type wrapper, unboxMethod type wrapper]).getD [] := by
    rw [h]
    rfl
  have htype : type ∈ [FieldType.byte, .char, .double, .float, .int, .long, .short, .boolean] := by
    cases type with
    | object name => cases h
    | array component => cases h
    | _ => decide
  have hall {m : MemberRef} (hm : m ∈ [boxMethod type wrapper, unboxMethod type wrapper]) :
      m ∈ ownMethods dispatcher :=
    List.mem_append_right _ (List.mem_flatMap.mpr ⟨type, htype, hmem ▸ hm⟩)
  exact ⟨hall (by simp), hall (by simp)⟩

/-- The method that an action calls. -/
def called? : Action → Option MemberRef
  | .invokeStatic m | .invokeVirtual m => some m
  | _ => none

/-- The actions call own methods only. -/
def CallsOwn (dispatcher : Dispatcher) (actions : List Action) : Prop :=
  ∀ a ∈ actions, ∀ m ∈ called? a, m ∈ ownMethods dispatcher

theorem CallsOwn.append {dispatcher : Dispatcher} {as bs : List Action}
    (ha : CallsOwn dispatcher as) (hb : CallsOwn dispatcher bs) : CallsOwn dispatcher (as ++ bs) :=
  List.forall_mem_append.mpr ⟨ha, hb⟩

theorem callsOwn_of_called? {dispatcher : Dispatcher} {as : List Action}
    (h : ∀ a ∈ as, called? a = none) : CallsOwn dispatcher as := by
  intro a ha m hm
  rw [h a ha] at hm
  cases hm

theorem callsOwn_singleton {dispatcher : Dispatcher} {a : Action} {m : MemberRef}
    (h : called? a = some m) (hm : m ∈ ownMethods dispatcher) : CallsOwn dispatcher [a] := by
  intro a' ha' m' hm'
  obtain rfl := List.mem_singleton.mp ha'
  rw [h] at hm'
  cases hm'
  exact hm

theorem callsOwn_returnClassActions {dispatcher : Dispatcher} (majorVersion : UInt16)
    (ret : ReturnType) : CallsOwn dispatcher (returnClassActions majorVersion ret) := by
  have hclass (name : String) : CallsOwn dispatcher
      (if classLiteralVersion ≤ majorVersion then [.push (.ref (.classNamed name))]
        else [.push (.ref (.string (binaryName name))), .invokeStatic forName]) := by
    have hstring : CallsOwn dispatcher [.push (.ref (.string (binaryName name)))] :=
      callsOwn_of_called? (by simp [called?])
    split
    · exact callsOwn_of_called? (by simp [called?])
    · exact hstring.append (callsOwn_singleton rfl (by simp [ownMethods]))
  cases ret with
  | void => exact callsOwn_of_called? (by simp [returnClassActions, called?])
  | value type =>
    cases type with
    | object name => exact hclass _
    | array component => exact hclass _
    | _ => exact callsOwn_of_called? (by simp [returnClassActions, FieldType.wrapper?, called?])

theorem callsOwn_boxActions {dispatcher : Dispatcher} (type : FieldType) :
    CallsOwn dispatcher (boxActions type) := by
  unfold boxActions
  cases hwrapper : type.wrapper? with
  | none => exact callsOwn_of_called? (by simp)
  | some wrapper => exact callsOwn_singleton rfl (wrapped_mem_ownMethods hwrapper).1

theorem callsOwn_storeArgumentsActions {dispatcher : Dispatcher} (position : Nat)
    (spilled : List Spill) : CallsOwn dispatcher (storeArgumentsActions position spilled) := by
  induction spilled generalizing position with
  | nil => exact callsOwn_of_called? (by simp [storeArgumentsActions])
  | cons spill rest ih =>
    refine CallsOwn.append ?_ (ih (position + 1))
    exact ((callsOwn_of_called? (by simp [called?])).append (callsOwn_boxActions spill.type)).append
      (callsOwn_of_called? (by simp [called?]))

theorem callsOwn_adaptActions {dispatcher : Dispatcher} (ret : ReturnType) :
    CallsOwn dispatcher (adaptActions ret) := by
  have hcast (name : String) : CallsOwn dispatcher [.cast name] :=
    callsOwn_of_called? (by simp [called?])
  have hunbox (type : FieldType) {wrapper : Wrapper} (h : type.wrapper? = some wrapper) :
      CallsOwn dispatcher [.cast wrapper.className, .invokeVirtual (unboxMethod type wrapper)] :=
    (hcast _).append (callsOwn_singleton rfl (wrapped_mem_ownMethods h).2)
  cases ret with
  | void => exact callsOwn_of_called? (by simp [adaptActions, called?])
  | value type =>
    cases type with
    | object name => exact hcast _
    | array component => exact hcast _
    | _ => exact hunbox _ rfl

/-- In place of a call, only own methods are called. -/
theorem callsOwn_plan (site : Site) (call : Call) (spilled : List Spill) :
    CallsOwn site.dispatcher (plan site call spilled) := by
  have hstores : ∀ a ∈ storeActions spilled, called? a = none := by
    intro a ha
    obtain ⟨s, -, rfl⟩ := List.mem_map.mp ha
    rfl
  have hreceiver : ∀ a ∈ receiverActions call.isStatic, called? a = none := by
    cases call.isStatic <;> simp [receiverActions, called?]
  exact (callsOwn_of_called? hstores).append <| (callsOwn_of_called? hreceiver).append <|
    (callsOwn_of_called? (by simp [called?])).append <|
    (callsOwn_returnClassActions _ _).append <| (callsOwn_of_called? (by simp [called?])).append <|
    (callsOwn_storeArgumentsActions 0 spilled).append <|
    (callsOwn_singleton rfl (by simp [ownMethods])).append (callsOwn_adaptActions _)

/-- An instruction is quiet if what it calls is not a target. -/
theorem quiet_of_action? {i : Instruction τ} {a : Action} (h : action? pool i = some a)
    (hcalled : ∀ m ∈ called? a, .ofParts m.owner m.name m.descriptor ∉ targets) :
    Quiet pool targets i := by
  cases hindex : i.invoked? with
  | none => exact quiet_of_invoked?_eq_none hindex
  | some index =>
    obtain ⟨opcode, operand⟩ := i
    cases operand with
    | constant other =>
      obtain ⟨hopcode, rfl⟩ : _ ∧ other = index := by
        simpa [Instruction.invoked?] using hindex
      have hmember (make : MemberRef → Action)
          (h : (pool.getMember other).toOption.map make = some a) :
          ∃ m, pool.getMember other = .ok m ∧ make m = a := by
        cases hm : pool.getMember other with
        | error e =>
          rw [hm] at h
          cases h
        | ok m =>
          rw [hm] at h
          exact ⟨m, rfl, Option.some.inj h⟩
      rcases hopcode with rfl | rfl | rfl
      · obtain ⟨m, hm, rfl⟩ := hmember .invokeVirtual h
        exact quiet_of_not_mem hindex hm (hcalled m rfl)
      · exact quiet_of_invokespecial rfl
      · obtain ⟨m, hm, rfl⟩ := hmember .invokeStatic h
        exact quiet_of_not_mem hindex hm (hcalled m rfl)
    | interface => cases h
    | _ => cases hindex

/-! ## Blocks -/

variable {site : Site}

theorem quiet_of_kept {moved : Nat → Nat} {l : Located Nat} {block : List (Located Nat)}
    (hquiet : Quiet pool targets l.instruction) (h : Kept moved l block) :
    ∀ l' ∈ block, Quiet pool targets l'.instruction := by
  intro l' hl'
  cases h with
  | same hread =>
    obtain rfl := List.mem_singleton.mp hl'
    exact hquiet.mapTargetsM hread
  | wideJump =>
    obtain rfl := List.mem_singleton.mp hl'
    exact quiet_of_invoked?_eq_none rfl
  | inverted =>
    simp only [List.mem_cons, List.not_mem_nil, or_false] at hl'
    rcases hl' with rfl | rfl <;> exact quiet_of_invoked?_eq_none rfl

/-- After redirecting, all that is left is quiet. -/
theorem quiet_of_becomes {moved : Nat → Nat} {l : Located Nat} {block : List (Located Nat)}
    (hown : ∀ m ∈ ownMethods site.dispatcher, .ofParts m.owner m.name m.descriptor ∉ targets)
    (hknown : Known pool l.instruction) (h : Becomes site targets pool moved l block) :
    ∀ l' ∈ block, Quiet pool targets l'.instruction := by
  cases h with
  | kept hnot hkept => exact quiet_of_kept ⟨hknown, hnot⟩ hkept
  | redirected _ _ _ _ _ _ hresolves _ =>
    intro l' hl'
    obtain ⟨a, ha, haction⟩ := exists_of_mem_left hresolves (List.mem_map_of_mem hl')
    exact quiet_of_action? haction fun m hm => hown m (callsOwn_plan _ _ _ a ha m hm)

/-! ## Edits -/

/-- Redirecting calls is an edit of the nodes. -/
theorem exists_edited {nodes : List Node} {groups : List (List Node)}
    (h : List.Forall₂ (Replaced site targets pool) nodes groups) :
    ∃ edits, Edited nodes edits groups.flatten := by
  induction h with
  | nil => exact ⟨[], .nil⟩
  | cons hgroup _ ih =>
    obtain ⟨edits, hedits⟩ := ih
    cases hgroup with
    | label => exact ⟨edits, .label hedits⟩
    | @kept i _ => exact ⟨[i] :: edits, .instruction (List.cons_ne_nil _ _) hedits⟩
    | @redirected _ _ _ _ replaced _ _ hsequence _ =>
      exact ⟨replaced.instructions :: edits,
        .instruction (sequence_instructions hsequence).1 hedits⟩

end ClassPatch.Redirect
