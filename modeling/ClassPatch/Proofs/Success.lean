import Mathlib

/-!
# Success of composed computations

What it means for a `do` block to succeed, in terms of its steps. `Except` and
`EStateM` are the two monads of the library; each gets one equivalence for `bind`
and one for `pure`, and `mapM` becomes a `List.Forall₂`. Proofs about a `do` block
take it apart with these and never unfold a monad.
-/

namespace ClassPatch.Success

variable {ε σ α β : Type}

/-! ## Computations that may fail -/

theorem except_bind {x : Except ε α} {f : α → Except ε β} {b : β} :
    (x >>= f) = .ok b ↔ ∃ a, x = .ok a ∧ f a = .ok b := by
  cases x with
  | error e => simp [bind, Except.bind]
  | ok a => simp [bind, Except.bind]

theorem except_pure {a b : α} : (pure a : Except ε α) = .ok b ↔ b = a := by
  simp [pure, Except.pure, eq_comm]

theorem except_mapM {f : α → Except ε β} {as : List α} {bs : List β} :
    as.mapM f = .ok bs ↔ List.Forall₂ (fun a b => f a = .ok b) as bs := by
  induction as generalizing bs with
  | nil => rw [List.mapM_nil, except_pure, List.forall₂_nil_left_iff]
  | cons a as ih =>
    simp only [List.mapM_cons, except_bind, except_pure, List.forall₂_cons_left_iff, ih]
    constructor
    · rintro ⟨b, hb, rest, hrest, rfl⟩
      exact ⟨b, rest, hb, hrest, rfl⟩
    · rintro ⟨b, rest, hb, hrest, rfl⟩
      exact ⟨b, hb, rest, hrest, rfl⟩

theorem except_mapM_append {f : α → Except ε β} {as as' : List α} {bs : List β} :
    (as ++ as').mapM f = .ok bs ↔
      ∃ front back, as.mapM f = .ok front ∧ as'.mapM f = .ok back ∧ bs = front ++ back := by
  simp only [List.mapM_append, except_bind, except_pure, exists_and_left]

/-- A list of steps succeeds if each of them does. -/
theorem exists_except_mapM {f : α → Except ε β} {as : List α} :
    (∃ bs, as.mapM f = .ok bs) ↔ ∀ a ∈ as, ∃ b, f a = .ok b := by
  simp only [except_mapM]
  induction as with
  | nil => simp
  | cons a as ih =>
    rw [List.forall_mem_cons, ← ih]
    constructor
    · intro h
      obtain ⟨_, hbs⟩ := h
      cases hbs with
      | cons hb hbs => exact ⟨⟨_, hb⟩, _, hbs⟩
    · intro h
      obtain ⟨⟨b, hb⟩, bs, hbs⟩ := h
      exact ⟨b :: bs, .cons hb hbs⟩

theorem except_bind_eq_error {x : Except ε α} {f : α → Except ε β} {e : ε} :
    (x >>= f) = .error e ↔ x = .error e ∨ ∃ a, x = .ok a ∧ f a = .error e := by
  cases x with
  | error e' => simp [bind, Except.bind]
  | ok a => simp [bind, Except.bind]

/-- A list of steps fails with the error of one of them. -/
theorem except_mapM_eq_error {f : α → Except ε β} {as : List α} {e : ε}
    (h : as.mapM f = .error e) : ∃ a ∈ as, f a = .error e := by
  induction as with
  | nil => cases h
  | cons a as ih =>
    rw [List.mapM_cons, except_bind_eq_error] at h
    rcases h with h | ⟨b, -, h⟩
    · exact ⟨a, List.mem_cons_self, h⟩
    · rcases except_bind_eq_error.mp h with h | ⟨bs, -, h⟩
      · obtain ⟨a', ha', hfail⟩ := ih h
        exact ⟨a', List.mem_cons_of_mem a ha', hfail⟩
      · cases h

theorem option_mapM {f : α → Option β} {as : List α} {bs : List β} :
    as.mapM f = some bs ↔ List.Forall₂ (fun a b => f a = some b) as bs := by
  induction as generalizing bs with
  | nil => simp [List.forall₂_nil_left_iff, eq_comm]
  | cons a as ih =>
    simp only [List.mapM_cons, Option.bind_eq_bind, Option.bind_eq_some_iff,
      Option.pure_def, Option.some.injEq, List.forall₂_cons_left_iff, ih]
    constructor
    · rintro ⟨b, hb, rest, hrest, rfl⟩
      exact ⟨b, rest, hb, hrest, rfl⟩
    · rintro ⟨b, rest, hb, hrest, rfl⟩
      exact ⟨b, hb, rest, hrest, rfl⟩

/-! ## Computations with a state -/

theorem state_bind {x : EStateM ε σ α} {f : α → EStateM ε σ β} {s s'' : σ} {b : β} :
    (x >>= f) s = .ok b s'' ↔ ∃ a s', x s = .ok a s' ∧ f a s' = .ok b s'' := by
  show EStateM.bind x f s = _ ↔ _
  unfold EStateM.bind
  cases x s <;> simp

/-- Running past a step that succeeds. -/
theorem state_bind_ok {x : EStateM ε σ α} {f : α → EStateM ε σ β} {s s' : σ} {a : α}
    (h : x s = .ok a s') : (x >>= f) s = f a s' := by
  show EStateM.bind x f s = _
  rw [EStateM.bind, h]

/-- Stopping at a step that fails. -/
theorem state_bind_error {x : EStateM ε σ α} {f : α → EStateM ε σ β} {s s' : σ} {e : ε}
    (h : x s = .error e s') : (x >>= f) s = .error e s' := by
  show EStateM.bind x f s = _
  rw [EStateM.bind, h]

theorem state_bind_eq_error {x : EStateM ε σ α} {f : α → EStateM ε σ β} {s s'' : σ} {e : ε} :
    (x >>= f) s = .error e s'' ↔
      x s = .error e s'' ∨ ∃ a s', x s = .ok a s' ∧ f a s' = .error e s'' := by
  show EStateM.bind x f s = _ ↔ _
  unfold EStateM.bind
  cases x s <;> simp

/-- A list of steps fails with the error of one of them. -/
theorem state_mapM_eq_error {f : α → EStateM ε σ β} {as : List α} {s s'' : σ} {e : ε}
    (h : as.mapM f s = .error e s'') : ∃ a ∈ as, ∃ s', f a s' = .error e s'' := by
  induction as generalizing s with
  | nil => cases h
  | cons a as ih =>
    rw [List.mapM_cons, state_bind_eq_error] at h
    rcases h with h | ⟨b, s', -, h⟩
    · exact ⟨a, List.mem_cons_self, s, h⟩
    · rcases state_bind_eq_error.mp h with h | ⟨bs, s₂, -, h⟩
      · obtain ⟨a', ha', hfail⟩ := ih h
        exact ⟨a', List.mem_cons_of_mem a ha', hfail⟩
      · cases h

theorem state_pure {a b : α} {s s' : σ} :
    (pure a : EStateM ε σ α) s = .ok b s' ↔ b = a ∧ s' = s := by
  show EStateM.pure a s = _ ↔ _
  simp [EStateM.pure, eq_comm]

theorem state_throw {e : ε} {a : α} {s s' : σ} :
    ¬(throw e : EStateM ε σ α) s = .ok a s' := by
  show ¬EStateM.throw e s = _
  simp [EStateM.throw]

/-- A list of steps succeeds if its first step does, and then the others from where that one
leaves the state. -/
theorem state_mapM_cons {f : α → EStateM ε σ β} {a : α} {as : List α} {bs : List β} {s s'' : σ} :
    (a :: as).mapM f s = .ok bs s'' ↔
      ∃ b s' rest, f a s = .ok b s' ∧ as.mapM f s' = .ok rest s'' ∧ bs = b :: rest := by
  rw [List.mapM_cons, state_bind]
  constructor
  · rintro ⟨b, s', hb, h⟩
    obtain ⟨rest, _, hrest, h⟩ := state_bind.mp h
    obtain ⟨rfl, rfl⟩ := state_pure.mp h
    exact ⟨b, s', rest, hb, hrest, rfl⟩
  · rintro ⟨b, s', rest, hb, hrest, rfl⟩
    exact ⟨b, s', hb, state_bind.mpr ⟨rest, s'', hrest, rfl⟩⟩

end ClassPatch.Success
