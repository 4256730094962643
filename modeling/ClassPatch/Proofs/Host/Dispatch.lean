import Mathlib
import ClassPatch.Proofs.Host.Registry
import ClassPatch.Proofs.MethodKey

/-!
# What a redirected call gives

Which values a call site takes, said apart from the checks that a result goes through, and what a
call comes to after any registrations: the handler registered last for exactly its key decides it,
and no call gives a value that its site does not take.
-/

namespace ClassPatch.Host

/-! ## Legal values -/

namespace Value

/-- The values that stand for references. -/
def IsReference : Value → Prop
  | null | string _ | bytes _ | ints _ | object _ => True
  | _ => False

/-- The values that a call site takes, by the result that it declares. -/
inductive Legal : ReturnType → Value → Prop
  | void : Legal .void .null
  | boolean {b : Bool} : Legal (.value .boolean) (.bool b)
  | byte {n : Int32} : -0x80 ≤ n.toInt → n.toInt < 0x80 → Legal (.value .byte) (.int n)
  | short {n : Int32} : -0x8000 ≤ n.toInt → n.toInt < 0x8000 → Legal (.value .short) (.int n)
  | char {n : Int32} : 0 ≤ n.toInt → n.toInt < 0x10000 → Legal (.value .char) (.int n)
  | int {n : Int32} : Legal (.value .int) (.int n)
  | long {n : Int64} : Legal (.value .long) (.long n)
  | float {bits : UInt32} : Legal (.value .float) (.float bits)
  | double {bits : UInt64} : Legal (.value .double) (.double bits)
  | object {name : String} {value : Value} :
      value.IsReference → Legal (.value (.object name)) value
  | array {component : FieldType} {value : Value} :
      value.IsReference → Legal (.value (.array component)) value

/-- The value that reads as nothing, whatever its type. -/
def IsZero : Value → Prop
  | null => True
  | bool b => b = false
  | int n => n = 0
  | long n => n = 0
  | float bits => bits = 0
  | double bits => bits = 0
  | _ => False

theorem isZero_defaultFor (ret : ReturnType) :
    (defaultFor ret).IsZero ∧ Legal ret (defaultFor ret) := by
  cases ret with
  | void => exact ⟨trivial, .void⟩
  | value type =>
    cases type with
    | byte => exact ⟨rfl, .byte (by decide) (by decide)⟩
    | short => exact ⟨rfl, .short (by decide) (by decide)⟩
    | char => exact ⟨rfl, .char (by decide) (by decide)⟩
    | int => exact ⟨rfl, .int⟩
    | long => exact ⟨rfl, .long⟩
    | float => exact ⟨rfl, .float⟩
    | double => exact ⟨rfl, .double⟩
    | boolean => exact ⟨rfl, .boolean⟩
    | object name => exact ⟨trivial, .object trivial⟩
    | array component => exact ⟨trivial, .array trivial⟩

/-- The types narrower than an integer take the integers in their range. -/
theorem isOf_narrow {value : Value} {type : FieldType} {low high : Int32}
    (hrange : narrowRange? type = some (low, high)) :
    value.isOf type = true ↔
      ∃ n : Int32, value = int n ∧ low.toInt ≤ n.toInt ∧ n.toInt ≤ high.toInt := by
  have hbounds (n : Int32) : (int n).isOf type = true ↔
      low.toInt ≤ n.toInt ∧ n.toInt ≤ high.toInt := by
    rw [← Int32.le_iff_toInt_le, ← Int32.le_iff_toInt_le]
    cases type <;> cases hrange <;> simp [isOf, narrowRange?]
  cases value with
  | int n => simpa using hbounds n
  | _ => cases type <;> cases hrange <;> simp [isOf]

/-- The check of a result asks for what its site takes. -/
theorem isOf_iff {value : Value} {type : FieldType} (hvalue : value ≠ null) :
    value.isOf type = true ↔ Legal (.value type) value := by
  constructor
  · intro h
    cases type with
    | byte =>
      obtain ⟨n, rfl, hlow, hhigh⟩ := (isOf_narrow rfl).mp h
      exact .byte hlow (Int.lt_add_one_of_le hhigh)
    | short =>
      obtain ⟨n, rfl, hlow, hhigh⟩ := (isOf_narrow rfl).mp h
      exact .short hlow (Int.lt_add_one_of_le hhigh)
    | char =>
      obtain ⟨n, rfl, hlow, hhigh⟩ := (isOf_narrow rfl).mp h
      exact .char hlow (Int.lt_add_one_of_le hhigh)
    | object name => cases value <;> first | exact .object trivial | cases h
    | array component => cases value <;> first | exact .array trivial | cases h
    | _ => cases value <;> first | constructor | cases h
  · intro h
    cases h with
    | byte hlow hhigh =>
      refine (isOf_narrow (rfl : narrowRange? .byte = _)).mpr ⟨_, rfl, hlow, ?_⟩
      exact Int.le_of_lt_add_one hhigh
    | short hlow hhigh =>
      refine (isOf_narrow (rfl : narrowRange? .short = _)).mpr ⟨_, rfl, hlow, ?_⟩
      exact Int.le_of_lt_add_one hhigh
    | char hlow hhigh =>
      refine (isOf_narrow (rfl : narrowRange? .char = _)).mpr ⟨_, rfl, hlow, ?_⟩
      exact Int.le_of_lt_add_one hhigh
    | object href => cases value <;> first | rfl | exact absurd rfl hvalue | exact href.elim
    | array href => cases value <;> first | rfl | exact absurd rfl hvalue | exact href.elim
    | _ => rfl

theorem adapt_null (ret : ReturnType) : null.adapt ret = .ok (defaultFor ret) := by
  cases ret with
  | void => rfl
  | value type => rw [adapt, if_pos rfl, defaultFor]

theorem adapt_void (value : Value) : value.adapt .void = .ok null := rfl

/-- A value that the site takes stays as it is. -/
theorem adapt_of_legal {ret : ReturnType} {value : Value} (h : Legal ret value) :
    value.adapt ret = .ok value := by
  cases ret with
  | void =>
    cases h
    rfl
  | value type =>
    by_cases hvalue : value = null
    · -- null is a reference, so it is its own zero
      subst hvalue
      cases h <;> rfl
    · rw [adapt, if_neg hvalue, if_pos ((isOf_iff hvalue).mpr h)]

theorem adapt_of_not_legal {type : FieldType} {value : Value} (hvalue : value ≠ null)
    (h : ¬Legal (.value type) value) :
    value.adapt (.value type) = .error (.incompatibleReturn value.kind type.text) := by
  rw [adapt, if_neg hvalue, if_neg (fun hof => h ((isOf_iff hvalue).mp hof))]

theorem legal_of_adapt {ret : ReturnType} {value adapted : Value}
    (h : value.adapt ret = .ok adapted) : Legal ret adapted := by
  by_cases hvalue : value = null
  · subst hvalue
    rw [adapt_null] at h
    cases h
    exact (isZero_defaultFor ret).2
  · cases ret with
    | void =>
      cases h
      exact .void
    | value type =>
      by_cases hlegal : Legal (.value type) value
      · rw [adapt_of_legal hlegal] at h
        cases h
        exact hlegal
      · rw [adapt_of_not_legal hvalue hlegal] at h
        cases h

end Value

/-! ## Registrations -/

/-- The handler that was registered last for a key. -/
def lastHandler? (entries : List (MethodKey × Handler)) (key : MethodKey) : Option Handler :=
  (entries.reverse.find? (·.1 = key)).map (·.2)

namespace Registry

variable {r : Registry} {h h' : Heap} {key : MethodKey} {handler : Handler} {receiver : Value}
  {ret : ReturnType} {arguments : List Value} {p : MethodKey.Parts}

theorem lookup?_redirectAll_eq (r : Registry) (entries : List (MethodKey × Handler)) (h : Heap) :
    (r.redirectAll entries h).1.lookup? key = (lastHandler? entries key).or (r.lookup? key) := by
  induction entries generalizing r h with
  | nil => rfl
  | cons entry entries ih =>
    rw [redirectAll_cons, ih, lookup?_redirect]
    simp only [lastHandler?, List.reverse_cons, List.find?_append]
    by_cases hkey : entry.1 = key
    · cases entries.reverse.find? (·.1 = key) <;> simp [hkey]
    · cases entries.reverse.find? (·.1 = key) <;> simp [hkey]

/-! ## Calls -/

theorem adaptHeld_of_ok {value adapted : Value} (hadapt : value.adapt ret = .ok adapted) :
    adaptHeld value ret h = .ok adapted (if ret = .void then h.releaseValue value else h) := by
  rw [adaptHeld, hadapt]
  by_cases hret : ret = .void
  · rw [if_pos hret]
    dsimp only
    rw [if_pos hret]
    rfl
  · rw [if_neg hret]
    dsimp only
    rw [if_neg hret]
    rfl

theorem adaptHeld_of_error {value : Value} {e : Error} (hadapt : value.adapt ret = .error e) :
    adaptHeld value ret h = .error e (h.releaseValue value) := by
  rw [adaptHeld, hadapt]
  rfl

theorem adaptHeld_of_legal {value : Value} (hlegal : value.Legal ret) :
    adaptHeld value ret h = .ok value h := by
  rw [adaptHeld_of_ok (Value.adapt_of_legal hlegal)]
  by_cases hret : ret = .void
  · subst hret
    cases hlegal
    rfl
  · rw [if_neg hret]

theorem legal_of_adaptHeld {value adapted : Value}
    (hheld : adaptHeld value ret h = .ok adapted h') : adapted.Legal ret := by
  cases hadapt : value.adapt ret with
  | ok other =>
    rw [adaptHeld_of_ok hadapt] at hheld
    cases hheld
    exact Value.legal_of_adapt hadapt
  | error e =>
    rw [adaptHeld_of_error hadapt] at hheld
    cases hheld

theorem dispatch_of_unregistered (hlookup : r.lookup? key = none) :
    r.dispatch key receiver ret arguments h = .ok (.defaultFor ret) h := by
  have hinvoke : r.invoke key receiver ret arguments h = .ok none h := by
    rw [invoke, hlookup]
    rfl
  rw [dispatch, Success.state_bind_ok hinvoke]
  rfl

/-- The handler of a key that has no parts does not run. -/
theorem dispatch_of_malformed (hlookup : r.lookup? key = some handler)
    (hkey : ∀ p : MethodKey.Parts, p.WellFormed → p.key ≠ key) :
    r.dispatch key receiver ret arguments h = .error (.invalidDescriptor key.text) h := by
  have hinvoke : r.invoke key receiver ret arguments h =
      .error (.invalidDescriptor key.text) h := by
    rw [invoke, hlookup, MethodKey.parts_eq_error hkey]
    rfl
  rw [dispatch, Success.state_bind_error hinvoke]

theorem dispatch_of_failure (hlookup : r.lookup? key = some handler) (hp : p.WellFormed)
    (hkey : p.key = key) {e : Error}
    (hrun : handler.run ⟨receiver, p.descriptor, ret, arguments⟩ h = .error e h') :
    r.dispatch key receiver ret arguments h = .error e h' := by
  have hinvoke : r.invoke key receiver ret arguments h = .error e h' := by
    rw [invoke, hlookup, MethodKey.parts_eq_ok.mpr ⟨hp, hkey⟩]
    exact Success.state_bind_error hrun
  rw [dispatch, Success.state_bind_error hinvoke]

theorem dispatch_of_result (hlookup : r.lookup? key = some handler) (hp : p.WellFormed)
    (hkey : p.key = key) {value : Value}
    (hrun : handler.run ⟨receiver, p.descriptor, ret, arguments⟩ h = .ok value h') :
    r.dispatch key receiver ret arguments h = adaptHeld value ret h' := by
  have hinvoke : r.invoke key receiver ret arguments h = .ok (some value) h' := by
    rw [invoke, hlookup, MethodKey.parts_eq_ok.mpr ⟨hp, hkey⟩]
    exact Success.state_bind_ok hrun
  rw [dispatch, Success.state_bind_ok hinvoke]

/-- No call gives a value that its site does not take. -/
theorem legal_of_dispatch {value : Value}
    (hdispatch : r.dispatch key receiver ret arguments h = .ok value h') : value.Legal ret := by
  obtain ⟨result?, h₁, -, hresult⟩ := Success.state_bind.mp hdispatch
  cases result? with
  | none =>
    obtain ⟨rfl, -⟩ := Success.state_pure.mp hresult
    exact (Value.isZero_defaultFor ret).2
  | some result => exact legal_of_adaptHeld hresult

/-- What a call comes to after any registrations. Without a handler for exactly its key it gives the
zero of its result. With a malformed key it fails before the handler runs. Else only the handler
registered last runs, with the descriptor in the key: what it fails with is what the call fails with,
and what it gives is taken as it is, or made nothing or zero, or refused. -/
theorem dispatch_redirectAll (entries : List (MethodKey × Handler)) (start h : Heap)
    (key : MethodKey) (receiver : Value) (ret : ReturnType) (arguments : List Value) :
    let r := (empty.redirectAll entries start).1
    let dispatched := r.dispatch key receiver ret arguments h
    (∀ value h', dispatched = .ok value h' → value.Legal ret) ∧
    match lastHandler? entries key with
    | none => ∃ zero : Value, zero.IsZero ∧ zero.Legal ret ∧ dispatched = .ok zero h
    | some handler =>
      ((∀ p : MethodKey.Parts, p.WellFormed → p.key ≠ key) →
        dispatched = .error (.invalidDescriptor key.text) h) ∧
      ∀ p : MethodKey.Parts, p.WellFormed → p.key = key →
        match handler.run ⟨receiver, p.descriptor, ret, arguments⟩ h with
        | .error e h' => dispatched = .error e h'
        | .ok value h' =>
          (value.Legal ret → dispatched = .ok value h') ∧
          (ret = .void → dispatched = .ok .null (h'.releaseValue value)) ∧
          (value = .null → ∃ zero : Value, zero.IsZero ∧ zero.Legal ret ∧
            dispatched = .ok zero h') ∧
          ∀ type, ret = .value type → value ≠ .null → ¬value.Legal ret →
            dispatched = .error (.incompatibleReturn value.kind type.text)
              (h'.releaseValue value) := by
  intro r dispatched
  have hlookup : r.lookup? key = lastHandler? entries key := by
    rw [lookup?_redirectAll_eq]
    simp [lookup?, empty]
  refine ⟨fun value h' => legal_of_dispatch, ?_⟩
  cases hlast : lastHandler? entries key with
  | none =>
    obtain ⟨hzero, hlegal⟩ := Value.isZero_defaultFor ret
    exact ⟨_, hzero, hlegal, dispatch_of_unregistered (hlookup.trans hlast)⟩
  | some handler =>
    rw [hlast] at hlookup
    refine ⟨dispatch_of_malformed hlookup, fun p hp hkey => ?_⟩
    cases hrun : handler.run ⟨receiver, p.descriptor, ret, arguments⟩ h with
    | error e h' => exact dispatch_of_failure hlookup hp hkey hrun
    | ok value h' =>
      have hresult : dispatched = adaptHeld value ret h' :=
        dispatch_of_result hlookup hp hkey hrun
      refine ⟨fun hlegal => ?_, fun hvoid => ?_, fun hnull => ?_, fun type htype hvalue hnot => ?_⟩
      · rw [hresult, adaptHeld_of_legal hlegal]
      · subst hvoid
        rw [hresult, adaptHeld_of_ok (Value.adapt_void value), if_pos rfl]
      · subst hnull
        obtain ⟨hzero, hlegal⟩ := Value.isZero_defaultFor ret
        refine ⟨_, hzero, hlegal, ?_⟩
        rw [hresult, adaptHeld_of_ok (Value.adapt_null ret)]
        exact congrArg _ (ite_self h')
      · subst htype
        rw [hresult, adaptHeld_of_error (Value.adapt_of_not_legal hvalue hnot)]

end Registry

end ClassPatch.Host
