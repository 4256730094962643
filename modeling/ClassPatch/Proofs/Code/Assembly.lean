import Mathlib
import ClassPatch.Code.Layout
import ClassPatch.Proofs.Success

/-!
# Assembled plans

What a successful round of assembling has done, node by node: `Emitted` walks a plan with
the pieces of each node and the offset at which they start. Places are only ever added
while a plan is assembled, so the walk can speak of the final places from its first node
on.
-/

namespace ClassPatch.Code

open Bytes

/-- The number of bytes of pieces. -/
def piecesSize (pieces : List Piece) : Nat := (pieces.map Piece.size).sum

@[simp] theorem piecesSize_nil : piecesSize [] = 0 := rfl

@[simp] theorem piecesSize_cons (piece : Piece) (pieces : List Piece) :
    piecesSize (piece :: pieces) = piece.size + piecesSize pieces := rfl

@[simp] theorem piecesSize_append (front back : List Piece) :
    piecesSize (front ++ back) = piecesSize front + piecesSize back := by
  simp [piecesSize]

namespace Assembler

@[simp] theorem places_append (a : Assembler) (pieces : List Piece) :
    (a.append pieces).places = a.places := rfl

@[simp] theorem pieces_append (a : Assembler) (pieces : List Piece) :
    (a.append pieces).pieces = a.pieces ++ pieces := rfl

@[simp] theorem size_append (a : Assembler) (pieces : List Piece) :
    (a.append pieces).size = a.size + piecesSize pieces := by
  have hfold (size : Nat) : pieces.foldl (fun size piece => size + piece.size) size
      = size + piecesSize pieces := by
    induction pieces generalizing size with
    | nil => rfl
    | cons piece pieces ih =>
      rw [List.foldl_cons, ih, piecesSize_cons]
      omega
  exact hfold a.size

end Assembler

/-! ## One node -/

/-- The pieces of a node at `start`. -/
def PlannedNode.pieces (p : PlannedNode) (start : Nat) : Except Error (List Piece) :=
  match p.node with
  | .label _ => .ok []
  | .instruction i => if p.wide then i.widePieces start else i.pieces start

/-- The pieces of an instruction at `start`, as far as offsets are open in them: an instruction
with targets has an open offset for each, and every other one is closed. -/
inductive Instruction.Emits (i : Instruction Label) (start : Nat) : List Piece → Prop
  | closed {data : List UInt8} : data ≠ [] → Emits i start [.bytes data]
  | branch {target : Label} :
      Opcode.layout? i.opcode = some .branch → i.operand = .branch target →
      Emits i start [.bytes [i.opcode], .offset16 target start]
  | branchWide {target : Label} :
      i.operand = .branch target → Emits i start [.bytes [i.opcode], .offset32 target start]
  | tableSwitch {fallback : Label} {low : Int32} {targets : List Label} {bounds : List UInt8} :
      i.operand = .tableSwitch fallback low targets →
      Emits i start (.bytes (i.opcode :: padding start) :: .offset32 fallback start ::
        .bytes bounds :: targets.map (.offset32 · start))
  | lookupSwitch {fallback : Label} {pairs : List (Int32 × Label)} {count : List UInt8} :
      i.operand = .lookupSwitch fallback pairs →
      Emits i start (.bytes (i.opcode :: padding start) :: .offset32 fallback start ::
        .bytes count :: pairs.flatMap fun (key, target) =>
          [.bytes (BigEndian.i32 key), .offset32 target start])

theorem emits_of_pieces {i : Instruction Label} {start : Nat} {pieces : List Piece}
    (h : i.pieces start = .ok pieces) : i.Emits start pieces := by
  obtain ⟨opcode, operand⟩ := i
  unfold Instruction.pieces at h
  dsimp only at h
  split at h
  case h_13 target hlayout =>
    cases h
    exact .branch hlayout rfl
  case h_14 target _ =>
    cases h
    exact .branchWide rfl
  case h_15 fallback low targets _ =>
    split at h
    · cases h
    split at h
    · cases h
    cases h
    exact .tableSwitch rfl
  case h_16 fallback pairs _ =>
    split at h
    · cases h
    cases h
    exact .lookupSwitch rfl
  -- the forms without targets, three of them with a wide form
  all_goals cases h
  all_goals
    refine .closed ?_
    first
      | exact List.cons_ne_nil _ _
      | split <;> exact List.cons_ne_nil _ _

/-- The wide pieces of an instruction: a jump takes its opcode for four bytes, a condition is
turned around and leads past such a jump, and anything else has only one form. -/
theorem widePieces_cases {i : Instruction Label} {start : Nat} {pieces : List Piece}
    (h : i.widePieces start = .ok pieces) :
    (∃ target jump, i.operand = .branch target ∧ Opcode.wideJump? i.opcode = some jump ∧
      pieces = [.bytes [jump], .offset32 target start]) ∨
    (∃ target inverse, i.operand = .branch target ∧ Opcode.wideJump? i.opcode = none ∧
      Opcode.inverse? i.opcode = some inverse ∧
      pieces = [.bytes (inverse :: (BigEndian.i16 8 ++ [Opcode.gotoW])),
        .offset32 target (start + 3)]) ∨
    (∀ target, i.operand ≠ .branch target) ∧ i.pieces start = .ok pieces := by
  unfold Instruction.widePieces at h
  split at h
  · rename_i target hoperand
    split at h
    · rename_i hjump
      cases h
      exact .inl ⟨target, _, hoperand, hjump, rfl⟩
    · rename_i hjump hinverse
      cases h
      exact .inr (.inl ⟨target, _, hoperand, hjump, hinverse, rfl⟩)
    · cases h
  · rename_i hoperand
    exact .inr (.inr ⟨hoperand, h⟩)

theorem place_eq_ok {label : Label} {a a' : Assembler} {u : Unit} :
    Assembly.place label a = .ok u a' ↔
      a.places[label]? = none ∧ a' = { a with places := a.places.insert label a.size } := by
  unfold Assembly.place
  cases hlabel : a.places.contains label with
  | false =>
    have hnone : a.places[label]? = none := Std.HashMap.getElem?_eq_none_of_contains_eq_false hlabel
    simp [hnone, eq_comm]
  | true =>
    have hsome : (a.places[label]?).isSome = true := by
      rw [Std.HashMap.isSome_getElem?_eq_contains, hlabel]
    obtain ⟨place, hplace⟩ := Option.isSome_iff_exists.mp hsome
    simp [hplace]

theorem emitWith_eq_ok {pieces : Nat → Except Error (List Piece)} {a a' : Assembler}
    {emitted : List Piece} :
    Assembly.emitWith pieces a = .ok emitted a' ↔
      pieces a.size = .ok emitted ∧ a' = a.append emitted := by
  unfold Assembly.emitWith
  cases h : pieces a.size with
  | error e => simp
  | ok emitted' =>
    simp only [EStateM.Result.ok.injEq, Except.ok.injEq]
    constructor
    · intro h'
      obtain ⟨rfl, rfl⟩ := h'
      exact ⟨rfl, rfl⟩
    · intro h'
      obtain ⟨rfl, rfl⟩ := h'
      exact ⟨rfl, rfl⟩

theorem assemble_label_eq_ok {label : Label} {wide : Bool} {a a' : Assembler}
    {pieces : List Piece} :
    (⟨.label label, wide⟩ : PlannedNode).assemble a = .ok pieces a' ↔
      pieces = [] ∧ a.places[label]? = none ∧
        a' = { a with places := a.places.insert label a.size } := by
  show ((do Assembly.place label; return [] : Assembly (List Piece)) a = .ok pieces a') ↔ _
  rw [Success.state_bind]
  simp only [place_eq_ok, Success.state_pure]
  constructor
  · intro h
    obtain ⟨-, a₁, ⟨hnone, rfl⟩, rfl, rfl⟩ := h
    exact ⟨rfl, hnone, rfl⟩
  · intro h
    obtain ⟨rfl, hnone, rfl⟩ := h
    exact ⟨(), _, ⟨hnone, rfl⟩, rfl, rfl⟩

theorem assemble_instruction_eq_ok {i : Instruction Label} {wide : Bool} {a a' : Assembler}
    {pieces : List Piece} :
    (⟨.instruction i, wide⟩ : PlannedNode).assemble a = .ok pieces a' ↔
      (⟨.instruction i, wide⟩ : PlannedNode).pieces a.size = .ok pieces ∧
        a' = a.append pieces := by
  cases wide with
  | false => exact emitWith_eq_ok
  | true => exact emitWith_eq_ok

/-! ## A whole plan -/

/-- The pieces of a plan from an offset on, in code whose labels have the given places. -/
inductive Emitted (places : Places) : Nat → List PlannedNode → List (List Piece) → Nat → Prop
  | nil {start : Nat} : Emitted places start [] [] start
  | label {start stop : Nat} {label : Label} {wide : Bool} {plan : List PlannedNode}
        {pieces : List (List Piece)} :
      places[label]? = some start → Emitted places start plan pieces stop →
      Emitted places start (⟨.label label, wide⟩ :: plan) ([] :: pieces) stop
  | instruction {start stop : Nat} {i : Instruction Label} {wide : Bool}
        {plan : List PlannedNode} {front : List Piece} {pieces : List (List Piece)} :
      (⟨.instruction i, wide⟩ : PlannedNode).pieces start = .ok front →
      Emitted places (start + piecesSize front) plan pieces stop →
      Emitted places start (⟨.instruction i, wide⟩ :: plan) (front :: pieces) stop

/-- What assembling the nodes of a plan one after the other has done to the code. -/
structure AssembledPlan (a : Assembler) (plan : List PlannedNode) (pieces : List (List Piece))
    (a' : Assembler) : Prop where
  emitted : Emitted a'.places a.size plan pieces a'.size
  pieces_eq : a'.pieces.toList = a.pieces.toList ++ pieces.flatten
  places_le : ∀ (label : Label) (place : Nat), a.places[label]? = some place → a'.places[label]? = some place
  label_mem : ∀ (label : Label) (place : Nat), a'.places[label]? = some place →
    a.places[label]? = some place ∨ .label label ∈ plan.map (·.node)

theorem assembledPlan_of_mapM {plan : List PlannedNode} {pieces : List (List Piece)}
    {a a' : Assembler} (h : plan.mapM PlannedNode.assemble a = .ok pieces a') :
    AssembledPlan a plan pieces a' := by
  induction plan generalizing pieces a with
  | nil =>
    rw [List.mapM_nil, Success.state_pure] at h
    obtain ⟨rfl, rfl⟩ := h
    exact ⟨.nil, by simp, fun _ _ h => h, fun _ _ h => .inl h⟩
  | cons p plan ih =>
    obtain ⟨front, a₁, rest, hp, hplan, rfl⟩ := Success.state_mapM_cons.mp h
    have hih := ih hplan
    obtain ⟨node, wide⟩ := p
    cases node with
    | label label =>
      obtain ⟨rfl, hnone, rfl⟩ := assemble_label_eq_ok.mp hp
      refine ⟨.label (hih.places_le label a.size (by simp)) hih.emitted, hih.pieces_eq, ?_, ?_⟩
      · intro label' place hplace
        apply hih.places_le
        rw [Std.HashMap.getElem?_insert]
        by_cases heq : label = label'
        · subst heq
          rw [hnone] at hplace
          contradiction
        · simpa [heq] using hplace
      · intro label' place hplace
        rcases hih.label_mem label' place hplace with hold | hmem
        · rw [Std.HashMap.getElem?_insert] at hold
          by_cases heq : label = label'
          · exact .inr (by simp [heq])
          · exact .inl (by simpa [heq] using hold)
        · exact .inr (List.mem_cons_of_mem _ hmem)
    | instruction i =>
      obtain ⟨hfront, rfl⟩ := assemble_instruction_eq_ok.mp hp
      have hemitted := hih.emitted
      rw [Assembler.size_append] at hemitted
      refine ⟨.instruction hfront hemitted, ?_, hih.places_le, ?_⟩
      · rw [hih.pieces_eq]
        simp
      · intro label place hplace
        rcases hih.label_mem label place hplace with hold | hmem
        · exact .inl hold
        · exact .inr (List.mem_cons_of_mem _ hmem)

theorem Emitted.length_eq {places : Places} {start stop : Nat} {plan : List PlannedNode}
    {pieces : List (List Piece)} (h : Emitted places start plan pieces stop) :
    plan.length = pieces.length := by
  induction h with
  | nil => rfl
  | label _ _ ih => simp [ih]
  | instruction _ _ ih => simp [ih]

/-- A label has the place where its node is emitted. -/
theorem Emitted.of_label {places : Places} {start stop : Nat} {plan : List PlannedNode}
    {pieces : List (List Piece)} {label : Label} {nodes : List Node}
    (h : Emitted places start plan pieces stop)
    (hnodes : plan.map (·.node) = .label label :: nodes) :
    places[label]? = some start ∧ ∃ plan' pieces', plan'.map (·.node) = nodes ∧
      Emitted places start plan' pieces' stop := by
  cases h with
  | nil => cases hnodes
  | label hplace hrest =>
    obtain ⟨hlabel, hplan⟩ := List.cons.inj hnodes
    cases hlabel
    exact ⟨hplace, _, _, hplan, hrest⟩
  | instruction _ _ =>
    obtain ⟨hlabel, -⟩ := List.cons.inj hnodes
    cases hlabel

/-- The node after an instruction is emitted where the pieces of the instruction end. -/
theorem Emitted.of_instruction {places : Places} {start stop : Nat} {plan : List PlannedNode}
    {pieces : List (List Piece)} {i : Instruction Label} {nodes : List Node}
    (h : Emitted places start plan pieces stop)
    (hnodes : plan.map (·.node) = .instruction i :: nodes) :
    ∃ wide front plan' pieces',
      (⟨.instruction i, wide⟩ : PlannedNode).pieces start = .ok front ∧
      plan'.map (·.node) = nodes ∧ Emitted places (start + piecesSize front) plan' pieces' stop := by
  cases h with
  | nil => cases hnodes
  | label _ _ =>
    obtain ⟨hinstruction, -⟩ := List.cons.inj hnodes
    cases hinstruction
  | instruction hfront hrest =>
    obtain ⟨hinstruction, hplan⟩ := List.cons.inj hnodes
    cases hinstruction
    exact ⟨_, _, _, _, hfront, hplan, hrest⟩

/-- Without a branch an instruction has only one form. -/
theorem Emitted.of_closed {places : Places} {start stop : Nat} {plan : List PlannedNode}
    {pieces : List (List Piece)} {i : Instruction Label} {front : List Piece} {nodes : List Node}
    (h : Emitted places start plan pieces stop)
    (hnodes : plan.map (·.node) = .instruction i :: nodes)
    (hbranch : ∀ target, i.operand ≠ .branch target) (hfront : i.pieces start = .ok front) :
    ∃ plan' pieces', plan'.map (·.node) = nodes ∧
      Emitted places (start + piecesSize front) plan' pieces' stop := by
  obtain ⟨wide, front', plan', pieces', hpieces, hnodes', hrest⟩ := h.of_instruction hnodes
  have hsame : i.pieces start = .ok front' := by
    cases wide with
    | false => exact hpieces
    | true =>
      rcases widePieces_cases hpieces with ⟨target, _, hoperand, -⟩ | ⟨target, _, hoperand, -⟩ |
        ⟨-, hpieces⟩
      · exact absurd hoperand (hbranch target)
      · exact absurd hoperand (hbranch target)
      · exact hpieces
  obtain rfl : front = front' := Except.ok.inj (hfront.symm.trans hsame)
  exact ⟨plan', pieces', hnodes', hrest⟩

theorem assemblePlan_eq_ok {plan : List PlannedNode} {pieces : List (List Piece)}
    {a : Assembler} (h : assemblePlan plan = .ok (pieces, a)) :
    AssembledPlan .empty plan pieces a := by
  unfold assemblePlan at h
  cases hrun : plan.mapM PlannedNode.assemble Assembler.empty with
  | error e a' =>
    rw [hrun] at h
    cases h
  | ok pieces' a' =>
    rw [hrun] at h
    cases h
    exact assembledPlan_of_mapM hrun

theorem pieces_of_assemblePlan {plan : List PlannedNode} {pieces : List (List Piece)}
    {a : Assembler} (h : assemblePlan plan = .ok (pieces, a)) :
    a.pieces.toList = pieces.flatten := by
  rw [(assemblePlan_eq_ok h).pieces_eq]
  rfl

end ClassPatch.Code
