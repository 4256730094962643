import Mathlib
import ClassPatch.Code.Layout
import ClassPatch.ConstantPool.Intern
import ClassPatch.Proofs.Success

/-!
# Faults of layouts

Why assembling nodes and interning names fail: because of an operand, a label or an offset that
cannot be written, or a full pool, but never because of a stack map. Faults of stack maps come from
storing one.
-/

namespace ClassPatch

open Code

/-- Whether a fault is about an operand, a label or an offset that cannot be assembled. -/
def RewriteFault.ofAssembly : RewriteFault → Bool
  | .undefinedOpcode _ | .emptyTableSwitch | .tableSwitchRange | .lookupSwitchPairs |
    .operandMismatch _ _ | .noWideForm _ | .labelPlacedTwice _ | .codeTooLong _ |
    .unplacedTarget _ | .shortOffset _ | .wideOffset _ => true
  | _ => false

/-- Whether an error is a fault of assembling. -/
def Error.ofAssembly : Error → Bool
  | .rewriteFailed fault => fault.ofAssembly
  | _ => false

/-- Whether a fault is about the frames of a stack map. -/
def RewriteFault.aboutFrames : RewriteFault → Bool
  | .tooManyFrames | .frameLabel _ | .frameOffset _ | .frameOrder _ _ | .unencodableFrame _ |
    .frameLost => true
  | _ => false

/-- Whether an error is a fault about the frames of a stack map. -/
def Error.aboutFrames : Error → Bool
  | .rewriteFailed fault => fault.aboutFrames
  | _ => false

namespace Code

theorem ofAssembly_of_refuse {α : Type} {fault : RewriteFault} {e : Error}
    (h : (refuse fault : Except Error α) = .error e) : e.ofAssembly = fault.ofAssembly := by
  cases h
  rfl

theorem ofAssembly_of_pieces {i : Instruction Label} {start : Nat} {e : Error}
    (h : i.pieces start = .error e) : e.ofAssembly = true := by
  unfold Instruction.pieces at h
  dsimp only at h
  -- whatever the form, the instruction is either written or refused
  repeat' split at h
  all_goals first | exact ofAssembly_of_refuse h | cases h

theorem ofAssembly_of_widePieces {i : Instruction Label} {start : Nat} {e : Error}
    (h : i.widePieces start = .error e) : e.ofAssembly = true := by
  unfold Instruction.widePieces at h
  split at h
  · split at h
    · cases h
    · cases h
    · exact ofAssembly_of_refuse h
  · exact ofAssembly_of_pieces h

theorem ofAssembly_of_assemble {p : PlannedNode} {a a' : Assembler} {e : Error}
    (h : p.assemble a = .error e a') : e.ofAssembly = true := by
  have hemit {pieces : Nat → Except Error (List Piece)}
      (hpieces : ∀ start, pieces start = .error e → e.ofAssembly = true)
      (h : Assembly.emitWith pieces a = .error e a') : e.ofAssembly = true := by
    unfold Assembly.emitWith at h
    split at h
    · cases h
    · rename_i hfail
      cases h
      exact hpieces _ hfail
  obtain ⟨node, wide⟩ := p
  cases node with
  | label label =>
    rcases Success.state_bind_eq_error.mp h with h | ⟨u, a₁, -, h⟩
    · unfold Assembly.place at h
      dsimp only at h
      split at h
      · cases h
        rfl
      · cases h
    · cases h
  | instruction i =>
    cases wide with
    | false => exact hemit (fun _ => ofAssembly_of_pieces) h
    | true => exact hemit (fun _ => ofAssembly_of_widePieces) h

theorem ofAssembly_of_resolve {places : Places} {piece : Piece} {e : Error}
    (h : piece.resolve places = .error e) : e.ofAssembly = true := by
  have hdistance {target : Label} {origin : Nat} (h : places.distance target origin = .error e) :
      e.ofAssembly = true := by
    unfold Places.distance at h
    split at h
    · cases h
    · exact ofAssembly_of_refuse h
  cases piece with
  | bytes data => cases h
  | offset16 target origin =>
    rcases Success.except_bind_eq_error.mp h with h | ⟨distance, -, h⟩
    · exact hdistance h
    · split at h
      · cases h
      · exact ofAssembly_of_refuse h
  | offset32 target origin =>
    rcases Success.except_bind_eq_error.mp h with h | ⟨distance, -, h⟩
    · exact hdistance h
    · split at h
      · cases h
      · exact ofAssembly_of_refuse h

theorem ofAssembly_of_finish {a : Assembler} {e : Error} (h : a.finish = .error e) :
    e.ofAssembly = true := by
  unfold Assembler.finish at h
  split at h
  · exact ofAssembly_of_refuse h
  · rcases Success.except_bind_eq_error.mp h with h | ⟨parts, -, h⟩
    · obtain ⟨piece, -, h⟩ := Success.except_mapM_eq_error h
      exact ofAssembly_of_resolve h
    · cases h

theorem ofAssembly_of_assemblePlan {plan : List PlannedNode} {e : Error}
    (h : assemblePlan plan = .error e) : e.ofAssembly = true := by
  unfold assemblePlan at h
  split at h
  · cases h
  · rename_i hfail
    cases h
    obtain ⟨p, -, a, h⟩ := Success.state_mapM_eq_error hfail
    exact ofAssembly_of_assemble h

theorem aboutFrames_of_ofAssembly {e : Error} (h : e.ofAssembly = true) : e.aboutFrames = false := by
  cases e with
  | rewriteFailed fault => cases fault <;> first | rfl | cases h
  | _ => rfl

end Code

theorem aboutFrames_of_internText {text : String} {pool pool' : ConstantPool} {e : Error}
    (h : ConstantPool.internText text pool = .error e pool') : e.aboutFrames = false := by
  unfold ConstantPool.internText ConstantPool.intern at h
  split at h
  · cases h
  · split at h
    · cases h
      rfl
    · dsimp only at h
      split at h
      · cases h
        rfl
      · cases h

end ClassPatch
