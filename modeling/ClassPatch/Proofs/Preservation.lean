import Mathlib
import ClassPatch.Proofs.Success

/-!
# What every run keeps

A computation with a state that fails keeps what it had changed before, so a property of
states that is to hold at all times has to survive the failing runs as well.
`Keeps R x` says that the state after a run of `x`, whatever came of the run, is related
to the state before. Where `R` is reflexive and transitive, `Keeps R` passes through the
steps of a `do` block. `FailsWithin R x` says it of the failing runs alone.
-/

namespace ClassPatch

/-- The state that a run leaves, also if it failed. -/
def stateAfter {ε σ α : Type} : EStateM.Result ε σ α → σ
  | .ok _ s => s
  | .error _ s => s

/-- Every run leaves a state that is related to the one it started in. -/
def Keeps {ε σ α : Type} (R : σ → σ → Prop) (x : EStateM ε σ α) : Prop :=
  ∀ s, R s (stateAfter (x s))

namespace Keeps

variable {ε σ α β : Type} {R : σ → σ → Prop}

/-- In particular, so does a run that succeeds. -/
theorem of_ok {x : EStateM ε σ α} (hx : Keeps R x) {s s' : σ} {a : α} (h : x s = .ok a s') :
    R s s' := by
  have hafter := hx s
  rwa [h] at hafter

theorem mono {S : σ → σ → Prop} {x : EStateM ε σ α} (hx : Keeps R x)
    (h : ∀ s s', R s s' → S s s') : Keeps S x :=
  fun s => h s _ (hx s)

section Steps

variable [Std.Refl R]

theorem pure (a : α) : Keeps R (Pure.pure a : EStateM ε σ α) :=
  fun s => Std.Refl.refl s

theorem throw (e : ε) : Keeps R (MonadExcept.throw e : EStateM ε σ α) :=
  fun s => Std.Refl.refl s

theorem get : Keeps R (MonadState.get : EStateM ε σ σ) :=
  fun s => Std.Refl.refl s

end Steps

theorem modify {f : σ → σ} (h : ∀ s, R s (f s)) : Keeps R (modify f : EStateM ε σ PUnit) :=
  h

/-- A step whose state goes into the rest of the computation. -/
theorem getBind {f : σ → EStateM ε σ β} (hf : ∀ s, R s (stateAfter (f s s))) :
    Keeps R ((MonadState.get : EStateM ε σ σ) >>= f) :=
  hf

variable [IsTrans σ R]

theorem bind {x : EStateM ε σ α} {f : α → EStateM ε σ β} (hx : Keeps R x)
    (hf : ∀ a, Keeps R (f a)) : Keeps R (x >>= f) := by
  intro s
  have hfirst := hx s
  show R s (stateAfter (EStateM.bind x f s))
  unfold EStateM.bind
  cases hrun : x s with
  | error e s' =>
    rw [hrun] at hfirst
    exact hfirst
  | ok a s' =>
    rw [hrun] at hfirst
    exact IsTrans.trans _ _ _ hfirst (hf a s')

variable [Std.Refl R]

theorem forM_of_mem {f : α → EStateM ε σ PUnit} {as : List α} (hf : ∀ a ∈ as, Keeps R (f a)) :
    Keeps R (as.forM f) := by
  induction as with
  | nil => exact pure _
  | cons a as ih =>
    obtain ⟨ha, has⟩ := List.forall_mem_cons.mp hf
    exact bind ha fun _ => ih has

theorem forM {f : α → EStateM ε σ PUnit} (hf : ∀ a, Keeps R (f a)) (as : List α) :
    Keeps R (as.forM f) :=
  forM_of_mem fun a _ => hf a

theorem mapM {f : α → EStateM ε σ β} (hf : ∀ a, Keeps R (f a)) (as : List α) :
    Keeps R (as.mapM f) := by
  induction as with
  | nil => exact pure _
  | cons a as ih =>
    rw [List.mapM_cons]
    exact bind (hf a) fun b => bind ih fun bs => pure _

end Keeps

/-! ## Failing runs -/

section FailsWithin

variable {ε σ α β : Type} {R : σ → σ → Prop}

/-- Every run that fails leaves a state that is related to the one it started in. -/
def FailsWithin (R : σ → σ → Prop) (x : EStateM ε σ α) : Prop :=
  ∀ s e s', x s = .error e s' → R s s'

/-- No run fails. -/
def NeverFails (x : EStateM ε σ α) : Prop := ∀ s e s', x s ≠ .error e s'

theorem NeverFails.pure (a : α) : NeverFails (Pure.pure a : EStateM ε σ α) :=
  fun s e s' h => by cases h

theorem NeverFails.modify (f : σ → σ) : NeverFails (modify f : EStateM ε σ PUnit) :=
  fun s e s' h => by cases h

theorem NeverFails.bind {x : EStateM ε σ α} {f : α → EStateM ε σ β} (hx : NeverFails x)
    (hf : ∀ a, NeverFails (f a)) : NeverFails (x >>= f) := by
  intro s e s' h
  rcases Success.state_bind_eq_error.mp h with hfirst | ⟨a, middle, -, hrest⟩
  · exact hx _ _ _ hfirst
  · exact hf a _ _ _ hrest

namespace FailsWithin

theorem of_keeps {x : EStateM ε σ α} (hx : Keeps R x) : FailsWithin R x := by
  intro s e s' h
  have hafter := hx s
  rwa [h] at hafter

theorem of_neverFails {x : EStateM ε σ α} (hx : NeverFails x) : FailsWithin R x :=
  fun s e s' h => absurd h (hx s e s')

/-- Steps that stay within the relation may come before. -/
theorem after [IsTrans σ R] {x : EStateM ε σ α} {f : α → EStateM ε σ β} (hx : Keeps R x)
    (hf : ∀ a, FailsWithin R (f a)) : FailsWithin R (x >>= f) := by
  intro s e s' h
  rcases Success.state_bind_eq_error.mp h with hfirst | ⟨a, middle, hfirst, hrest⟩
  · exact of_keeps hx s e s' hfirst
  · exact IsTrans.trans _ _ _ (hx.of_ok hfirst) (hf a _ _ _ hrest)

/-- Steps that cannot fail may come behind. -/
theorem before {x : EStateM ε σ α} {f : α → EStateM ε σ β} (hx : FailsWithin R x)
    (hf : ∀ a, NeverFails (f a)) : FailsWithin R (x >>= f) := by
  intro s e s' h
  rcases Success.state_bind_eq_error.mp h with hfirst | ⟨a, middle, -, hrest⟩
  · exact hx s e s' hfirst
  · exact absurd hrest (hf a _ _ _)

end FailsWithin

end FailsWithin

end ClassPatch
