import Mathlib
import ClassPatch.Proofs.Machine.Action
import ClassPatch.Proofs.Success

/-!
# Steps of the stack machine

One lemma for each action: the state it leads to, under the conditions in which it is
not stuck. Sequences of actions are run with `performAll_append` and these lemmas, and
nothing below here unfolds the machine.
-/

namespace ClassPatch.Machine

open Code

variable {ctx : Context} {s : State}

/-! ## Depths and types -/

@[simp] theorem depth_nil : depth [] = 0 := rfl

@[simp] theorem depth_cons (value : Value) (stack : List Value) :
    depth (value :: stack) = value.slots + depth stack := rfl

@[simp] theorem slots_ref (r : Ref) : (Value.ref r).slots = 1 := rfl

@[simp] theorem slots_int (value : Int32) : (Value.int value).slots = 1 := rfl

theorem slots_le_two (value : Value) : value.slots ≤ 2 := by
  cases value <;> simp [Value.slots]

theorem ofValue?_toValue (p : Primitive) :
    Primitive.ofValue? p.type p.toValue = some p := by
  cases p with
  | boolean b => cases b <;> simp [Primitive.type, Primitive.toValue, Primitive.ofValue?]
  | _ => simp [Primitive.type, Primitive.toValue, Primitive.ofValue?]

theorem of_ofValue? {type : FieldType} {value : Value} {p : Primitive}
    (h : Primitive.ofValue? type value = some p) : p.type = type ∧ p.toValue = value := by
  unfold Primitive.ofValue? at h
  split at h
  · split at h
    · rename_i hsame
      obtain rfl := Option.some.inj h
      exact ⟨rfl, congrArg Value.int hsame⟩
    · cases h
  · split at h
    · rename_i hsame
      obtain rfl := Option.some.inj h
      refine ⟨rfl, ?_⟩
      rw [Primitive.toValue, hsame, Int32.toInt32_toUInt32]
    · cases h
  · split at h
    · rename_i hsame
      obtain rfl := Option.some.inj h
      exact ⟨rfl, congrArg Value.int hsame⟩
    · cases h
  · split at h
    · rename_i hzero
      obtain rfl := Option.some.inj h
      exact ⟨rfl, by rw [hzero]; rfl⟩
    · split at h
      · rename_i hone
        obtain rfl := Option.some.inj h
        exact ⟨rfl, by rw [hone]; rfl⟩
      · cases h
  · cases h
    exact ⟨rfl, rfl⟩
  · cases h
    exact ⟨rfl, rfl⟩
  · cases h
    exact ⟨rfl, rfl⟩
  · cases h
    exact ⟨rfl, rfl⟩
  · cases h

/-- The primitive values of a type are those that the stack can hold for it. -/
theorem ofValue?_eq_some {type : FieldType} {value : Value} {p : Primitive} :
    Primitive.ofValue? type value = some p ↔ p.type = type ∧ p.toValue = value := by
  constructor
  · exact of_ofValue?
  · intro h
    obtain ⟨rfl, rfl⟩ := h
    exact ofValue?_toValue p

theorem box?_eq_some {type : FieldType} {value : Value} {r : Ref} (h : box? type value = some r) :
    (value = .ref r ∧ type.wrapper? = none) ∨
      ∃ p : Primitive, r = .boxed p ∧ p.type = type ∧ p.toValue = value := by
  unfold box? at h
  split at h
  · cases h
    exact .inl ⟨rfl, rfl⟩
  · cases h
    exact .inl ⟨rfl, rfl⟩
  · obtain ⟨p, hp, rfl⟩ := Option.map_eq_some_iff.mp h
    exact .inr ⟨p, rfl, ofValue?_eq_some.mp hp⟩

theorem HasType.kind_eq {value : Value} {type : FieldType} (h : HasType value type) :
    value.kind = kindOf type := by
  obtain ⟨r, hr⟩ := h
  rcases box?_eq_some hr with ⟨rfl, hreference⟩ | ⟨p, rfl, rfl, rfl⟩
  · cases type <;> first | rfl | cases hreference
  · cases p <;> rfl

theorem HasType.slots_eq {value : Value} {type : FieldType} (h : HasType value type) :
    value.slots = type.slots := by
  obtain ⟨r, hr⟩ := h
  rcases box?_eq_some hr with ⟨rfl, hreference⟩ | ⟨p, rfl, rfl, rfl⟩
  · cases type <;> first | rfl | cases hreference
  · cases p <;> rfl

/-! ## Locals -/

theorem holds_setLocal (locals : Nat → Slot) (slot : Nat) (value : Value) :
    Holds (setLocal locals slot value) slot value := by
  refine ⟨by simp [setLocal], fun hwide => ?_⟩
  simp [setLocal, hwide]

theorem setLocal_of_outside {locals : Nat → Slot} {slot n : Nat} {value : Value}
    (h : n < slot ∨ slot + value.slots ≤ n) : setLocal locals slot value n = locals n := by
  have hslots : 1 ≤ value.slots := by cases value <;> simp [Value.slots]
  unfold setLocal
  rw [if_neg (by omega), if_neg (by omega)]

/-- A store leaves the locals that it does not overlap alone. -/
theorem Holds.setLocal {locals : Nat → Slot} {slot other : Nat} {value new : Value}
    (h : Holds locals slot value) (hoverlap : slot + value.slots ≤ other ∨ other + new.slots ≤ slot) :
    Holds (setLocal locals other new) slot value := by
  have hslots : 1 ≤ value.slots := by cases value <;> simp [Value.slots]
  refine ⟨?_, fun hwide => ?_⟩
  · rw [setLocal_of_outside (by omega)]
    exact h.1
  · rw [setLocal_of_outside (by omega)]
    exact h.2 hwide

/-! ## Single actions -/

theorem push_eq_ok {value : Value} (h : depth s.stack + value.slots ≤ ctx.maxStack) :
    push ctx value s = .ok () { s with stack := value :: s.stack } := by
  rw [push, if_pos h]

theorem pop_cons {value : Value} {rest : List Value} (h : s.stack = value :: rest) :
    pop s = .ok value { s with stack := rest } := by
  rw [pop, h]

theorem popRef_cons {r : Ref} {rest : List Value} (h : s.stack = .ref r :: rest) :
    popRef s = .ok r { s with stack := rest } := by
  rw [popRef, Success.state_bind_ok (pop_cons h)]
  rfl

theorem popInt_cons {value : Int32} {rest : List Value} (h : s.stack = .int value :: rest) :
    popInt s = .ok value { s with stack := rest } := by
  rw [popInt, Success.state_bind_ok (pop_cons h)]
  rfl

theorem perform_push {value : Value} (h : depth s.stack + value.slots ≤ ctx.maxStack) :
    perform ctx (.push value) s = .ok () { s with stack := value :: s.stack } :=
  push_eq_ok h

theorem perform_store {kind : Kind} {slot : UInt16} {value : Value} {rest : List Value}
    (hstack : s.stack = value :: rest) (hkind : value.kind = kind)
    (hlocals : slot.toNat + value.slots ≤ ctx.maxLocals) :
    perform ctx (.store kind slot) s =
      .ok () { s with stack := rest, locals := setLocal s.locals slot.toNat value } := by
  show store ctx kind slot.toNat s = _
  rw [store, Success.state_bind_ok (pop_cons hstack), if_pos ⟨hkind, hlocals⟩]
  rfl

theorem perform_load {kind : Kind} {slot : UInt16} {value : Value}
    (hholds : Holds s.locals slot.toNat value) (hkind : value.kind = kind)
    (hroom : depth s.stack + value.slots ≤ ctx.maxStack) :
    perform ctx (.load kind slot) s = .ok () { s with stack := value :: s.stack } := by
  show load ctx kind slot.toNat s = _
  have hget : (get : Execution State) s = .ok s s := rfl
  rw [load, Success.state_bind_ok hget]
  rw [hholds.1]
  dsimp only
  rw [Success.state_bind_ok hget, if_pos ⟨hkind, hholds.2⟩]
  exact push_eq_ok hroom

theorem perform_dup {value : Value} {rest : List Value} (hstack : s.stack = value :: rest)
    (hslots : value.slots = 1) (hroom : depth s.stack + 1 ≤ ctx.maxStack) :
    perform ctx .dup s = .ok () { s with stack := value :: s.stack } := by
  rw [hstack, depth_cons] at hroom
  show (do
    let value ← pop
    if value.slots = 1 then
      push ctx value
      push ctx value
    else throw .stuck : Execution Unit) s = _
  have hfirst : push ctx value { s with stack := rest } = .ok () s := by
    rw [push_eq_ok (by dsimp only; omega), ← hstack]
  rw [Success.state_bind_ok (pop_cons hstack), if_pos hslots, Success.state_bind_ok hfirst,
    push_eq_ok (by rw [hstack, depth_cons]; omega)]

theorem perform_pop {value : Value} {rest : List Value} (hstack : s.stack = value :: rest)
    (hslots : value.slots = 1) :
    perform ctx .pop s = .ok () { s with stack := rest } := by
  show (do
    let value ← pop
    if value.slots = 1 then return () else throw .stuck : Execution Unit) s = _
  rw [Success.state_bind_ok (pop_cons hstack), if_pos hslots]
  rfl

theorem perform_newArray {className : String} {count : Int32} {rest : List Value}
    (hstack : s.stack = .int count :: rest) (hcount : 0 ≤ count)
    (hroom : depth rest + 1 ≤ ctx.maxStack) :
    perform ctx (.newArray className) s = .ok () { s with
      stack := .ref (.array s.arrays.length) :: rest
      arrays := s.arrays ++ [⟨className, List.replicate count.toInt.toNat .null⟩] } := by
  show newArray ctx className s = _
  rw [newArray, Success.state_bind_ok (popInt_cons hstack), if_neg (Int32.not_lt.mpr hcount)]
  have hget : (get : Execution State) { s with stack := rest } =
    .ok { s with stack := rest } { s with stack := rest } := rfl
  rw [Success.state_bind_ok hget]
  have hmodify : (modify fun s : State => { s with
      arrays := s.arrays ++ [⟨className, List.replicate count.toInt.toNat .null⟩] } :
        Execution Unit) { s with stack := rest } = .ok () { s with
          stack := rest
          arrays := s.arrays ++ [⟨className, List.replicate count.toInt.toNat .null⟩] } := rfl
  rw [Success.state_bind_ok hmodify, push_eq_ok hroom]

/-- Arrays of objects take every reference. -/
theorem perform_storeElement {element : Ref} {index : Int32} {address : Nat}
    {elements : List Ref} {rest : List Value}
    (hstack : s.stack = .ref element :: .int index :: .ref (.array address) :: rest)
    (harray : s.arrays[address]? = some ⟨"java/lang/Object", elements⟩)
    (hlow : 0 ≤ index) (hhigh : index.toInt.toNat < elements.length) :
    perform ctx .storeElement s = .ok () { s with
      stack := rest
      arrays := s.arrays.set address
        ⟨"java/lang/Object", elements.set index.toInt.toNat element⟩ } := by
  show storeElement ctx s = _
  have hget : (get : Execution State) { s with stack := rest } =
    .ok { s with stack := rest } { s with stack := rest } := rfl
  rw [storeElement, Success.state_bind_ok (popRef_cons hstack),
    Success.state_bind_ok (popInt_cons rfl), Success.state_bind_ok (popRef_cons rfl)]
  dsimp only
  rw [Success.state_bind_ok hget]
  dsimp only
  rw [harray]
  dsimp only
  rw [if_neg (by rw [not_or, Int32.not_lt, Nat.not_le]; exact ⟨hlow, hhigh⟩), if_pos (.inl rfl)]
  rfl

theorem perform_getStatic {field : MemberRef} {type : ReturnType}
    (howner : wrapped? field.owner = some type) (hname : field.name = "TYPE")
    (hdescriptor : field.descriptor = "Ljava/lang/Class;")
    (hroom : depth s.stack + 1 ≤ ctx.maxStack) :
    perform ctx (.getStatic field) s =
      .ok () { s with stack := .ref (.primitiveClass type) :: s.stack } := by
  show getStatic ctx field s = _
  rw [getStatic, howner]
  dsimp only
  rw [if_pos ⟨hname, hdescriptor⟩]
  exact push_eq_ok hroom

/-! ## Calls -/

/-- The state after a call has been noted. -/
def State.called (s : State) (method : MemberRef) (arguments : List Value) : State :=
  { s with calls := s.calls ++ [⟨method, arguments, s.arrays⟩] }

theorem popArguments_reverse {types : List FieldType} {arguments below : List Value}
    (htypes : List.Forall₂ HasType arguments types) (s : State)
    (hstack : s.stack = arguments.reverse ++ below) :
    popArguments types s = .ok arguments { s with stack := below } := by
  induction htypes generalizing s below with
  | nil =>
    rw [List.reverse_nil, List.nil_append] at hstack
    rw [← hstack]
    rfl
  | @cons value type arguments types hvalue _ ih =>
    rw [List.reverse_cons, List.append_assoc] at hstack
    rw [popArguments, Success.state_bind_ok (ih s hstack), Success.state_bind_ok (pop_cons rfl)]
    obtain ⟨r, hr⟩ := hvalue
    rw [if_pos (by rw [hr]; rfl)]
    rfl

theorem perform_boxing {method : MemberRef} {type : FieldType} {ret : ReturnType}
    {value : Value} {r : Ref} {rest : List Value} (hboxing : boxing? method = some type)
    (hdescriptor : MethodDescriptor.parse? method.descriptor = some ⟨[type], ret⟩)
    (hstack : s.stack = value :: rest) (hbox : box? type value = some r)
    (hroom : depth rest + 1 ≤ ctx.maxStack) :
    perform ctx (.invokeStatic method) s =
      .ok () { { s with stack := rest }.called method [value] with stack := .ref r :: rest } := by
  show invokeStatic ctx method s = _
  have htypes : List.Forall₂ HasType [value] [type] := .cons ⟨r, hbox⟩ .nil
  have hrecord : record method [value] { s with stack := rest } =
    .ok () ({ s with stack := rest }.called method [value]) := rfl
  rw [invokeStatic, hdescriptor]
  dsimp only
  rw [Success.state_bind_ok (popArguments_reverse htypes s hstack),
    Success.state_bind_ok hrecord, hboxing]
  dsimp only
  rw [hbox]
  exact push_eq_ok hroom

theorem perform_forName {name : String} {rest : List Value}
    (hstack : s.stack = .ref (.string name) :: rest) :
    perform ctx (.invokeStatic forName) s =
      pushResult ctx (ctx.world.forName name)
        ({ s with stack := rest }.called forName [.ref (.string name)]) := by
  show invokeStatic ctx forName s = _
  have hdescriptor : MethodDescriptor.parse? forName.descriptor =
    some ⟨[.object "java/lang/String"], .value (.object "java/lang/Class")⟩ := by decide
  have htypes : List.Forall₂ HasType [.ref (.string name)] [.object "java/lang/String"] :=
    .cons ⟨_, rfl⟩ .nil
  have hrecord : record forName [.ref (.string name)] { s with stack := rest } =
    .ok () ({ s with stack := rest }.called forName [.ref (.string name)]) := rfl
  have hboxing : boxing? forName = none := by decide
  rw [invokeStatic, hdescriptor]
  dsimp only
  rw [Success.state_bind_ok (popArguments_reverse htypes s hstack),
    Success.state_bind_ok hrecord, hboxing]
  dsimp only
  rw [if_pos rfl]

/-- A method of the world, which is neither one that boxes values nor `Class.forName`. -/
theorem perform_invokeStatic {method : MemberRef} {params : List FieldType} {className : String}
    {arguments rest : List Value} (hboxing : boxing? method = none) (hforName : method ≠ forName)
    (hdescriptor : MethodDescriptor.parse? method.descriptor =
      some ⟨params, .value (.object className)⟩)
    (htypes : List.Forall₂ HasType arguments params)
    (hstack : s.stack = arguments.reverse ++ rest) :
    perform ctx (.invokeStatic method) s =
      match ctx.world.invoke ⟨method, arguments, s.arrays⟩ with
      | .ok (r, arrays) =>
        push ctx (.ref r) { { s with stack := rest }.called method arguments with arrays }
      | .error e => .error (.threw e) ({ s with stack := rest }.called method arguments) := by
  show invokeStatic ctx method s = _
  have hrecord : record method arguments { s with stack := rest } =
    .ok () ({ s with stack := rest }.called method arguments) := rfl
  rw [invokeStatic, hdescriptor]
  dsimp only
  rw [Success.state_bind_ok (popArguments_reverse htypes s hstack),
    Success.state_bind_ok hrecord, hboxing]
  dsimp only
  rw [if_neg hforName]
  have hget : (get : Execution State) ({ s with stack := rest }.called method arguments) =
    .ok ({ s with stack := rest }.called method arguments)
      ({ s with stack := rest }.called method arguments) := rfl
  rw [Success.state_bind_ok hget]
  show (match ctx.world.invoke ⟨method, arguments, s.arrays⟩ with
    | .ok (r, arrays) => do
      modify fun s => { s with arrays }
      push ctx (.ref r)
    | .error e => raise e : Execution Unit) _ = _
  cases ctx.world.invoke ⟨method, arguments, s.arrays⟩ with
  | error e => rfl
  | ok result => rfl

theorem perform_cast {className : String} {r : Ref} {rest : List Value}
    (hstack : s.stack = .ref r :: rest) (hroom : depth rest + 1 ≤ ctx.maxStack) :
    perform ctx (.cast className) s =
      if r = .null ∨ isInstance ctx.world r className then
        .ok () { s with stack := .ref r :: rest }
      else .error (.threw .classCast) { s with stack := rest } := by
  show cast ctx className s = _
  rw [cast, Success.state_bind_ok (popRef_cons hstack)]
  by_cases h : r = .null ∨ isInstance ctx.world r className
  · rw [if_pos h, if_pos h]
    exact push_eq_ok hroom
  · rw [if_neg h, if_neg h]
    rfl

/-- The method that gives the value of a box back. -/
theorem perform_unboxing {method : MemberRef} {value : Primitive} {ret : ReturnType}
    {rest : List Value} (hdescriptor : MethodDescriptor.parse? method.descriptor = some ⟨[], ret⟩)
    (hunboxing : unboxing? method = some value.type)
    (hstack : s.stack = .ref (.boxed value) :: rest)
    (hroom : depth rest + value.toValue.slots ≤ ctx.maxStack) :
    perform ctx (.invokeVirtual method) s =
      .ok () { { s with stack := rest }.called method [.ref (.boxed value)] with
        stack := value.toValue :: rest } := by
  show invokeVirtual ctx method s = _
  have hnone : popArguments [] s = .ok [] s := rfl
  have hrecord : record method [.ref (.boxed value)] { s with stack := rest } =
    .ok () ({ s with stack := rest }.called method [.ref (.boxed value)]) := rfl
  rw [invokeVirtual, hdescriptor]
  dsimp only
  rw [Success.state_bind_ok hnone, Success.state_bind_ok (popRef_cons hstack),
    Success.state_bind_ok hrecord]
  dsimp only
  rw [if_pos hunboxing]
  exact push_eq_ok hroom

/-- There is no value in no object. -/
theorem perform_unboxing_null {method : MemberRef} {ret : ReturnType} {rest : List Value}
    (hdescriptor : MethodDescriptor.parse? method.descriptor = some ⟨[], ret⟩)
    (hstack : s.stack = .ref .null :: rest) :
    perform ctx (.invokeVirtual method) s =
      .error (.threw .nullPointer) ({ s with stack := rest }.called method [.ref .null]) := by
  show invokeVirtual ctx method s = _
  have hnone : popArguments [] s = .ok [] s := rfl
  have hrecord : record method [.ref .null] { s with stack := rest } =
    .ok () ({ s with stack := rest }.called method [.ref .null]) := rfl
  rw [invokeVirtual, hdescriptor]
  dsimp only
  rw [Success.state_bind_ok hnone, Success.state_bind_ok (popRef_cons hstack),
    Success.state_bind_ok hrecord]
  rfl

/-! ## Sequences of actions -/

theorem performAll_cons {a : Action} {rest : List Action} {s' : State}
    (h : perform ctx a s = .ok () s') :
    performAll ctx (a :: rest) s = performAll ctx rest s' := by
  rw [performAll, Success.state_bind_ok h]

theorem performAll_cons_error {a : Action} {rest : List Action} {halt : Halt} {s' : State}
    (h : perform ctx a s = .error halt s') :
    performAll ctx (a :: rest) s = .error halt s' := by
  rw [performAll, Success.state_bind_error h]

theorem performAll_append {front back : List Action} {s' : State}
    (h : performAll ctx front s = .ok () s') :
    performAll ctx (front ++ back) s = performAll ctx back s' := by
  induction front generalizing s with
  | nil =>
    obtain ⟨-, rfl⟩ := Success.state_pure.mp h
    rfl
  | cons a front ih =>
    rw [performAll] at h
    obtain ⟨⟨⟩, s₁, hfirst, hrest⟩ := Success.state_bind.mp h
    rw [List.cons_append, performAll_cons hfirst]
    exact ih hrest

theorem performAll_append_error {front back : List Action} {halt : Halt} {s' : State}
    (h : performAll ctx front s = .error halt s') :
    performAll ctx (front ++ back) s = .error halt s' := by
  induction front generalizing s with
  | nil => cases h
  | cons a front ih =>
    rw [List.cons_append]
    cases hfirst : perform ctx a s with
    | ok u s₁ =>
      rw [performAll_cons hfirst] at h ⊢
      exact ih h
    | error halt' s₁ =>
      rw [performAll_cons_error hfirst] at h ⊢
      exact h

/-- Running instructions is performing what they resolve to. -/
theorem run_eq_performAll {τ : Type} {pool : ConstantPool} {is : List (Instruction τ)}
    {actions : List Action} (h : is.mapM (action? pool) = some actions) (s : State) :
    run ctx pool is s = performAll ctx actions s := by
  rw [Success.option_mapM] at h
  induction h generalizing s with
  | nil => rfl
  | @cons i a is actions ha _ ih =>
    rw [run, ha, performAll]
    dsimp only
    cases hfirst : perform ctx a s with
    | ok u s' => rw [Success.state_bind_ok hfirst, Success.state_bind_ok hfirst, ih]
    | error halt s' => rw [Success.state_bind_error hfirst, Success.state_bind_error hfirst]

end ClassPatch.Machine
