import Mathlib
import ClassPatch.Pipeline.Transformer
import ClassPatch.Proofs.ClassFile.Reached

/-!
# Rewriting stored classes

An entry is rewritten if its bytes are a class, the edit of the class succeeds, and the edited
class is stored as other bytes. Rewriting the result starts from the edited class itself, so what
the second run does is seen from the edit alone.
-/

namespace ClassPatch

open ClassFile

theorem editStored_eq_ok {data new : List UInt8} {edit : ClassEdit Unit} :
    editStored data edit = .ok new ↔
      ∃ c c', ClassFile.parse data = .ok c ∧ edit c = .ok () c' ∧ c'.toBytes = .ok new := by
  rw [editStored, Success.except_bind]
  constructor
  · intro h
    obtain ⟨c, hparse, h⟩ := h
    cases hedit : edit c with
    | ok u c' =>
      rw [hedit] at h
      exact ⟨c, c', hparse, hedit, h⟩
    | error e c' =>
      rw [hedit] at h
      cases h
  · intro h
    obtain ⟨c, c', hparse, hedit, hnew⟩ := h
    refine ⟨c, hparse, ?_⟩
    rw [hedit]
    exact hnew

/-! ## The edits of transformers -/

theorem MethodPatch.keeps_applyAll (patches : List MethodPatch) :
    Keeps Confined (MethodPatch.applyAll patches) :=
  (Confined.keeps_check _).bind fun _ => .forM (fun _ =>
    (Confined.keeps_replaceMethods _ _ _).bind fun _ => .pure _) _

namespace Transformer

theorem keeps_redirectCalls (dispatcher : Dispatcher) (targets : List MethodKey) :
    Keeps Confined (redirectCalls dispatcher targets) := by
  refine (Confined.keeps_check _).bind fun name => ?_
  by_cases howner : name ≠ dispatcher.owner
  · rw [if_pos howner]
    exact (Confined.keeps_injectRedirects targets dispatcher).bind fun _ => .pure _
  · rw [if_neg howner]
    exact .pure _

theorem ofRewrite_eq_rewritten {data new : List UInt8} {edit : ClassEdit Unit} :
    ofRewrite (rewriteStored data edit) = .rewritten new ↔
      editStored data edit = .ok new ∧ new ≠ data := by
  unfold rewriteStored
  cases editStored data edit with
  | error e => simp [ofRewrite]
  | ok bytes =>
    by_cases hsame : bytes = data
    · simp +contextual [ofRewrite, hsame]
    · simp only [hsame, if_false, ofRewrite, Outcome.rewritten.injEq, Except.ok.injEq]
      constructor
      · intro hnew
        exact ⟨hnew, hnew ▸ hsame⟩
      · intro h
        exact h.1

theorem ofRewrite_eq_unchanged {data : List UInt8} {edit : ClassEdit Unit} :
    ofRewrite (rewriteStored data edit) = .unchanged ↔ editStored data edit = .ok data := by
  unfold rewriteStored
  cases editStored data edit with
  | error e => simp [ofRewrite]
  | ok bytes =>
    by_cases hsame : bytes = data
    · simp [ofRewrite, hsame]
    · simp [ofRewrite, hsame]

/-- The edit that a transformer makes in the class of an entry, if it makes one. -/
def edit? : Transformer → Option (ClassEdit Unit)
  | constantReturn _ _ patches => some (MethodPatch.applyAll patches)
  | redirect _ _ dispatcher targets =>
    if targets.isEmpty then none else some (redirectCalls dispatcher targets)
  | extract _ _ => none

theorem edit?_redirect {name : String} {selection : Selection} {dispatcher : Dispatcher}
    {targets : List MethodKey} {edit : ClassEdit Unit} :
    (redirect name selection dispatcher targets).edit? = some edit ↔
      targets.isEmpty = false ∧ redirectCalls dispatcher targets = edit := by
  show (if targets.isEmpty then none else some (redirectCalls dispatcher targets)) = some edit ↔ _
  by_cases hempty : targets.isEmpty
  · simp [hempty]
  · simp [hempty]

/-- The edits of transformers are confined to methods. -/
theorem keeps_edit? {t : Transformer} {edit : ClassEdit Unit} (h : t.edit? = some edit) :
    Keeps Confined edit := by
  cases t with
  | constantReturn name selection patches =>
    cases h
    exact MethodPatch.keeps_applyAll patches
  | extract resource artifacts => cases h
  | redirect name selection dispatcher targets =>
    obtain ⟨-, rfl⟩ := edit?_redirect.mp h
    exact keeps_redirectCalls dispatcher targets

variable {σ : Type} {sink : Sink σ} {entry : Entry} {t : Transformer} {s s' : σ}
  {data : List UInt8}

theorem apply_of_edit? {edit : ClassEdit Unit} (h : t.edit? = some edit) :
    t.apply sink entry s = (ofRewrite (rewriteStored entry.data edit), s) := by
  cases t with
  | constantReturn name selection patches =>
    cases h
    rfl
  | extract resource artifacts => cases h
  | redirect name selection dispatcher targets =>
    obtain ⟨hne, rfl⟩ := edit?_redirect.mp h
    simp only [apply, hne, Bool.false_eq_true, if_false]
    rfl

/-- An entry is rewritten by an edit, and only to other bytes. -/
theorem apply_eq_rewritten :
    t.apply sink entry s = (.rewritten data, s') ↔ s' = s ∧ ∃ edit, t.edit? = some edit ∧
      editStored entry.data edit = .ok data ∧ data ≠ entry.data := by
  cases hedit : t.edit? with
  | some edit =>
    rw [apply_of_edit? hedit, Prod.mk.injEq, ofRewrite_eq_rewritten]
    simp [and_comm, eq_comm]
  | none =>
    simp only [reduceCtorEq, false_and, exists_false, and_false, iff_false]
    intro h
    cases t with
    | constantReturn name selection patches => cases hedit
    | extract resource artifacts =>
      unfold apply at h
      dsimp only at h
      split at h <;> cases h
    | redirect name selection dispatcher targets =>
      by_cases hempty : targets.isEmpty
      · simp [apply, hempty] at h
        cases h
      · simp [edit?, hempty] at hedit

/-- The classes before and after a rewrite. -/
theorem exists_edit_of_rewritten (h : t.apply sink entry s = (.rewritten data, s')) :
    ∃ edit c c', t.edit? = some edit ∧ ClassFile.parse entry.data = .ok c ∧
      ClassFile.parse data = .ok c' ∧ edit c = .ok () c' := by
  obtain ⟨-, edit, hsome, hstored, -⟩ := apply_eq_rewritten.mp h
  obtain ⟨c, c', hparse, hedit, hdata⟩ := editStored_eq_ok.mp hstored
  have hsound := (sound_of_parse hparse).evolve ((keeps_edit? hsome).of_ok hedit).evolves
  exact ⟨edit, c, c', hsome, hparse, hsound.parse_eq_ok hdata, hedit⟩

/-- If the edit does nothing more to the class that it has made, a second run leaves the
rewritten entry unchanged. -/
theorem apply_again {edit : ClassEdit Unit} {c' : ClassFile} (hsome : t.edit? = some edit)
    (hparse : ClassFile.parse data = .ok c') (hagain : edit c' = .ok () c') :
    t.apply sink { entry with data } s = (.unchanged, s) := by
  obtain ⟨-, -, -, hdata⟩ := ClassFile.parse_eq_ok.mp hparse
  have hstored := editStored_eq_ok.mpr ⟨c', c', hparse, hagain, hdata⟩
  rw [apply_of_edit? hsome, ofRewrite_eq_unchanged.mpr hstored]

end Transformer

end ClassPatch
