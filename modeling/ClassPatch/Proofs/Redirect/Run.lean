import Mathlib
import ClassPatch.Proofs.Machine.Steps
import ClassPatch.Proofs.Redirect.Plan

/-!
# Running a redirected call

What the instructions of a redirected call do on the stack machine. The plan is run part
by part; each part adds calls to the ones made so far, and only one of them is a call of
the dispatcher.
-/

namespace ClassPatch.Redirect

open Code ConstantPool Machine

variable {ctx : Context} {s : State}

/-! ## What a redirected call is to do -/

/-- The class of a result, as the dispatcher gets it. -/
def returnClass (world : World) (majorVersion : UInt16) : ReturnType → Except Ref Ref
  | .void => .ok (.primitiveClass .void)
  | .value type =>
    match type.className? with
    | none => .ok (.primitiveClass (.value type))
    | some name =>
      if classLiteralVersion ≤ majorVersion then .ok (.classNamed name)
      else world.forName (binaryName name)

/-- What a call leaves on the stack for a result of the dispatcher. -/
def adapt (world : World) : ReturnType → Ref → Except Ref (List Value)
  | .void, _ => .ok []
  | .value type, r =>
    match type.className?, r with
    | some name, r =>
      if r = .null ∨ isInstance world r name then .ok [.ref r] else .error .classCast
    | none, .boxed value =>
      if value.type = type then .ok [value.toValue] else .error .classCast
    | none, .null => .error .nullPointer
    | none, _ => .error .classCast

/-- What a call leaves on the stack and in the arrays if the dispatcher is called that way. -/
def outcome (world : World) (ret : ReturnType) (i : Invocation) :
    Except Ref (List Value × List RefArray) := do
  let (r, arrays) ← world.invoke i
  return (← adapt world ret r, arrays)

/-- What a call finds on the stack: the arguments, the last one on top, and the receiver. -/
def operands (isStatic : Bool) (receiver : Ref) (arguments : List Value) : List Value :=
  arguments.reverse ++ if isStatic then [] else [.ref receiver]

/-- The calls of the dispatcher so far. -/
def dispatches (dispatcher : Dispatcher) (s : State) : List Invocation :=
  s.calls.filter fun i => i.method = dispatchMethod dispatcher

/-- None of the calls is one of the dispatcher. -/
def Undispatched (dispatcher : Dispatcher) (calls : List Invocation) : Prop :=
  ∀ i ∈ calls, i.method ≠ dispatchMethod dispatcher

theorem Undispatched.append {dispatcher : Dispatcher} {front back : List Invocation}
    (hfront : Undispatched dispatcher front) (hback : Undispatched dispatcher back) :
    Undispatched dispatcher (front ++ back) := by
  intro i hi
  rcases List.mem_append.mp hi with h | h
  · exact hfront i h
  · exact hback i h

theorem undispatched_nil (dispatcher : Dispatcher) : Undispatched dispatcher [] := by
  intro i hi
  cases hi

theorem undispatched_singleton {dispatcher : Dispatcher} {i : Invocation}
    (h : i.method.descriptor ≠ Dispatcher.descriptor) : Undispatched dispatcher [i] := by
  intro j hj hmethod
  obtain rfl := List.mem_singleton.mp hj
  exact h (by rw [hmethod]; rfl)

theorem Undispatched.filter {dispatcher : Dispatcher} {calls : List Invocation}
    (h : Undispatched dispatcher calls) :
    (calls.filter fun i => i.method = dispatchMethod dispatcher) = [] := by
  rw [List.filter_eq_nil_iff]
  intro i hi
  rw [decide_eq_true_eq]
  exact h i hi

/-! ## Locals for arguments -/

theorem slots_pos (type : FieldType) : 1 ≤ type.slots := by
  cases type <;> simp [FieldType.slots]

theorem spills_cons {next last : UInt16} {type : FieldType} {types : List FieldType}
    {spilled : List Spill} (h : spills next (type :: types) = .ok (spilled, last)) :
    ∃ rest after, spilled = ⟨type, next⟩ :: rest ∧ after.toNat = next.toNat + type.slots ∧
      spills after types = .ok (rest, last) := by
  rw [spills] at h
  by_cases hfull : UInt16.size ≤ next.toNat + type.slots
  · rw [if_pos hfull] at h
    cases h
  · rw [if_neg hfull] at h
    obtain ⟨⟨rest, last'⟩, hrest, hpure⟩ := Success.except_bind.mp h
    cases hpure
    have hslots : type.slots < UInt16.size := by omega
    refine ⟨rest, _, rfl, ?_, hrest⟩
    rw [UInt16.toNat_add, UInt16.toNat_ofNat_of_lt' hslots, Nat.mod_eq_of_lt (Nat.not_le.mp hfull)]

/-- The locals follow each other without a gap. -/
theorem spills_last {next last : UInt16} {types : List FieldType} {spilled : List Spill}
    (h : spills next types = .ok (spilled, last)) :
    last.toNat = next.toNat + (types.map FieldType.slots).sum := by
  induction types generalizing next spilled with
  | nil =>
    cases h
    rfl
  | cons type types ih =>
    obtain ⟨rest, after, -, hafter, hrest⟩ := spills_cons h
    rw [ih hrest, hafter, List.map_cons, List.sum_cons, Nat.add_assoc]

theorem spills_types {next last : UInt16} {types : List FieldType} {spilled : List Spill}
    (h : spills next types = .ok (spilled, last)) : spilled.map Spill.type = types := by
  induction types generalizing next spilled with
  | nil =>
    cases h
    rfl
  | cons type types ih =>
    obtain ⟨rest, after, rfl, -, hrest⟩ := spills_cons h
    rw [List.map_cons, ih hrest]

theorem spills_slot_le {next last : UInt16} {types : List FieldType} {spilled : List Spill}
    (h : spills next types = .ok (spilled, last)) :
    ∀ spill ∈ spilled, next.toNat ≤ spill.slot.toNat := by
  induction types generalizing next spilled with
  | nil =>
    cases h
    intro spill hspill
    cases hspill
  | cons type types ih =>
    obtain ⟨rest, after, rfl, hafter, hrest⟩ := spills_cons h
    intro spill hspill
    rcases List.mem_cons.mp hspill with rfl | hmem
    · exact Nat.le_refl _
    · have := ih hrest spill hmem
      omega

/-- An argument takes at least one local. -/
theorem spills_length {next last : UInt16} {types : List FieldType} {spilled : List Spill}
    (h : spills next types = .ok (spilled, last)) :
    next.toNat + spilled.length ≤ last.toNat := by
  induction types generalizing next spilled with
  | nil =>
    cases h
    exact Nat.le_refl _
  | cons type types ih =>
    obtain ⟨rest, after, rfl, hafter, hrest⟩ := spills_cons h
    have hlater := ih hrest
    have hslots := slots_pos type
    rw [List.length_cons]
    omega

/-- The arguments go from the stack to their locals. The last one is on top, so the ones
after an argument are stored before it, and storing it leaves theirs alone. -/
theorem performAll_storeActions {next last : UInt16} {types : List FieldType}
    {spilled : List Spill} {arguments rest : List Value}
    (hspills : spills next types = .ok (spilled, last))
    (htypes : List.Forall₂ HasType arguments types)
    (hstack : s.stack = arguments.reverse ++ rest) (hlocals : last.toNat ≤ ctx.maxLocals) :
    ∃ locals, performAll ctx (storeActions spilled) s =
        .ok () { s with stack := rest, locals := locals } ∧
      List.Forall₂ (fun spill value => Holds locals spill.slot.toNat value) spilled arguments ∧
      ∀ n, n < next.toNat ∨ last.toNat ≤ n → locals n = s.locals n := by
  induction htypes generalizing next spilled rest with
  | nil =>
    cases hspills
    rw [List.reverse_nil, List.nil_append] at hstack
    refine ⟨s.locals, ?_, .nil, fun n _ => rfl⟩
    rw [← hstack]
    rfl
  | @cons value type arguments types hvalue htypes ih =>
    obtain ⟨later, after, rfl, hafter, hlater⟩ := spills_cons hspills
    rw [List.reverse_cons, List.append_assoc] at hstack
    obtain ⟨locals, hrun, hholds, hframe⟩ := ih hlater hstack
    have hlast := spills_last hlater
    have hslots := hvalue.slots_eq
    refine ⟨setLocal locals next.toNat value, ?_, .cons (holds_setLocal _ _ _) ?_, ?_⟩
    · have hactions : storeActions (⟨type, next⟩ :: later) =
          storeActions later ++ [.store (kindOf type) next] := by
        rw [storeActions, List.reverse_cons, List.map_append]
        rfl
      have hstore : perform ctx (.store (kindOf type) next)
          { s with stack := value :: rest, locals := locals } =
            .ok () { s with stack := rest, locals := setLocal locals next.toNat value } :=
        perform_store rfl hvalue.kind_eq (by omega)
      rw [hactions, performAll_append hrun]
      exact performAll_cons hstore
    · have hlow := spills_slot_le hlater
      refine ((List.forall₂_and_left _ _).mpr ⟨hlow, hholds⟩).imp fun spill stored h => ?_
      exact h.2.setLocal (.inr (by omega))
    · intro n hn
      rw [setLocal_of_outside (by omega)]
      exact hframe n (by omega)

/-! ## The methods of wrappers -/

section Wrappers

variable {type : FieldType} {wrapper : Wrapper}

/-- The wrappers that code calls are the box classes of the machine. -/
theorem wrapper?_eq_find? (type : FieldType) :
    type.wrapper? = (boxClasses.find? (·.type = type)).map fun c => ⟨c.className, c.unboxing⟩ := by
  cases type <;> rfl

theorem wrapped?_wrapper (h : type.wrapper? = some wrapper) :
    wrapped? wrapper.className = some (.value type) := by
  cases type <;> cases h <;> decide

theorem className?_eq_none (h : type.wrapper? = some wrapper) : type.className? = none := by
  cases type <;> cases h <;> rfl

theorem boxing?_boxMethod (h : type.wrapper? = some wrapper) :
    boxing? (boxMethod type wrapper) = some type := by
  cases type <;> cases h <;> decide

theorem parse?_boxMethod (h : type.wrapper? = some wrapper) :
    MethodDescriptor.parse? (boxMethod type wrapper).descriptor =
      some ⟨[type], .value (.object wrapper.className)⟩ := by
  cases type <;> cases h <;> decide

theorem boxMethod_ne_dispatcher (h : type.wrapper? = some wrapper) :
    (boxMethod type wrapper).descriptor ≠ Dispatcher.descriptor := by
  cases type <;> cases h <;> decide

theorem unboxing?_unboxMethod (h : type.wrapper? = some wrapper) :
    unboxing? (unboxMethod type wrapper) = some type := by
  cases type <;> cases h <;> decide

theorem parse?_unboxMethod (h : type.wrapper? = some wrapper) :
    MethodDescriptor.parse? (unboxMethod type wrapper).descriptor =
      some ⟨[], .value type⟩ := by
  cases type <;> cases h <;> decide

theorem unboxMethod_ne_dispatcher (h : type.wrapper? = some wrapper) :
    (unboxMethod type wrapper).descriptor ≠ Dispatcher.descriptor := by
  cases type <;> cases h <;> decide

/-- The objects of a wrapper class are the boxes of values of its type. -/
theorem isInstance_wrapper (world : World) (h : type.wrapper? = some wrapper) (r : Ref) :
    isInstance world r wrapper.className ↔ ∃ value : Primitive, r = .boxed value ∧ value.type = type := by
  unfold isInstance
  rw [wrapped?_wrapper h]
  cases r <;> simp

end Wrappers

theorem forName_ne_dispatcher : forName.descriptor ≠ Dispatcher.descriptor := by
  decide

theorem parse?_dispatcher : MethodDescriptor.parse? Dispatcher.descriptor =
    some ⟨[.object "java/lang/Object", .object "java/lang/String", .object "java/lang/Class",
      .array (.object "java/lang/Object")], .value (.object "java/lang/Object")⟩ := by
  decide

/-- The descriptor of a dispatcher is none of those of the methods that box values. -/
theorem boxing?_dispatchMethod (dispatcher : Dispatcher) :
    boxing? (dispatchMethod dispatcher) = none := by
  refine Option.bind_eq_none_iff.mpr fun c hc => if_neg fun h => ?_
  have hdescriptor : ∀ c ∈ boxClasses,
      Dispatcher.descriptor ≠ "(" ++ c.descriptor ++ ")L" ++ c.className ++ ";" := by decide
  exact hdescriptor c (List.mem_of_find?_eq_some hc) h.2

/-! ## Packing the arguments -/

/-- A number that is small enough is none below zero as an `int`. -/
theorem ofNat_nonneg {n : Nat} (h : n < 2 ^ 31) : 0 ≤ Int32.ofNat n := by
  rw [Int32.le_iff_toInt_le, Int32.toInt_ofNat_of_lt h]
  exact Int.natCast_nonneg n

/-- Boxing leaves the box of the value, by a call of the method of its own wrapper. -/
theorem performAll_boxActions (dispatcher : Dispatcher) {type : FieldType} {value : Value}
    {r : Ref} {rest : List Value} (hbox : box? type value = some r)
    (hstack : s.stack = value :: rest) (hroom : depth rest + 1 ≤ ctx.maxStack) :
    ∃ calls, Undispatched dispatcher calls ∧ performAll ctx (boxActions type) s =
      .ok () { s with stack := .ref r :: rest, calls := s.calls ++ calls } := by
  rcases box?_eq_some hbox with ⟨rfl, hreference⟩ | ⟨p, rfl, rfl, rfl⟩
  · refine ⟨[], undispatched_nil dispatcher, ?_⟩
    rw [boxActions, hreference, List.append_nil, ← hstack]
    rfl
  · obtain ⟨wrapper, hwrapper⟩ : ∃ wrapper, p.type.wrapper? = some wrapper := by
      cases p <;> exact ⟨_, rfl⟩
    refine ⟨[⟨boxMethod p.type wrapper, [p.toValue], s.arrays⟩],
      undispatched_singleton (boxMethod_ne_dispatcher hwrapper), ?_⟩
    rw [boxActions, hwrapper]
    exact performAll_cons (perform_boxing (boxing?_boxMethod hwrapper) (parse?_boxMethod hwrapper)
      hstack hbox hroom)

/-- One element of the array is set to the boxed argument. -/
theorem performAll_storeArgumentActions (dispatcher : Dispatcher) {spill : Spill} {value : Value}
    {r : Ref} {address position : Nat} {elements : List Ref} {rest : List Value}
    (hholds : Holds s.locals spill.slot.toNat value) (hbox : box? spill.type value = some r)
    (hstack : s.stack = .ref (.array address) :: rest)
    (harray : s.arrays[address]? = some ⟨"java/lang/Object", elements⟩)
    (hposition : position < elements.length) (hsmall : position < 2 ^ 31)
    (hroom : depth s.stack + 4 ≤ ctx.maxStack) :
    ∃ calls, Undispatched dispatcher calls ∧
      performAll ctx (storeArgumentActions position spill) s = .ok () { s with
        arrays := s.arrays.set address ⟨"java/lang/Object", elements.set position r⟩
        calls := s.calls ++ calls } := by
  have htype : HasType value spill.type := ⟨r, hbox⟩
  have hslots := slots_le_two value
  have hindex : (Int32.ofNat position).toInt = position := Int32.toInt_ofNat_of_lt hsmall
  have hdup : perform ctx .dup s =
      .ok () { s with stack := .ref (.array address) :: s.stack } :=
    perform_dup hstack rfl (by omega)
  have hpush : perform ctx (.push (.int (Int32.ofNat position)))
      { s with stack := .ref (.array address) :: s.stack } = .ok () { s with
        stack := .int (Int32.ofNat position) :: .ref (.array address) :: s.stack } :=
    perform_push (by simp only [depth_cons, slots_ref, slots_int]; omega)
  have hload : perform ctx (.load (kindOf spill.type) spill.slot) { s with
      stack := .int (Int32.ofNat position) :: .ref (.array address) :: s.stack } =
        .ok () { s with
          stack := value :: .int (Int32.ofNat position) :: .ref (.array address) :: s.stack } :=
    perform_load hholds htype.kind_eq (by simp only [depth_cons, slots_ref, slots_int]; omega)
  have hfront : performAll ctx [.dup, .push (.int (Int32.ofNat position)),
      .load (kindOf spill.type) spill.slot] s = .ok () { s with
        stack := value :: .int (Int32.ofNat position) :: .ref (.array address) :: s.stack } :=
    (performAll_cons hdup).trans ((performAll_cons hpush).trans (performAll_cons hload))
  obtain ⟨calls, hcalls, hboxing⟩ := performAll_boxActions dispatcher hbox
    (s := { s with
      stack := value :: .int (Int32.ofNat position) :: .ref (.array address) :: s.stack })
    rfl (by simp only [depth_cons, slots_ref, slots_int]; omega : _ ≤ ctx.maxStack)
  have hstore : perform ctx .storeElement { s with
      stack := .ref r :: .int (Int32.ofNat position) :: .ref (.array address) :: s.stack
      calls := s.calls ++ calls } = .ok () { s with
        arrays := s.arrays.set address
          ⟨"java/lang/Object", elements.set (Int32.ofNat position).toInt.toNat r⟩
        calls := s.calls ++ calls } :=
    perform_storeElement rfl harray (ofNat_nonneg hsmall) (by rw [hindex, Int.toNat_natCast]; exact hposition)
  rw [hindex, Int.toNat_natCast] at hstore
  refine ⟨calls, hcalls, ?_⟩
  rw [storeArgumentActions, List.append_assoc, performAll_append hfront,
    performAll_append hboxing]
  exact performAll_cons hstore

/-- The elements before a position are set, the others are null. Every argument stored moves
the border on by one. -/
theorem performAll_storeArgumentsActions (dispatcher : Dispatcher) {spilled : List Spill}
    {arguments : List Value} (done : List Ref) {boxes : List Ref} {arrays : List RefArray}
    {rest : List Value}
    (hholds : List.Forall₂ (fun spill value => Holds s.locals spill.slot.toNat value)
      spilled arguments)
    (hboxes : List.zipWith box? (spilled.map Spill.type) arguments = boxes.map some)
    (hstack : s.stack = .ref (.array arrays.length) :: rest)
    (harrays : s.arrays = arrays ++
      [⟨"java/lang/Object", done ++ List.replicate spilled.length .null⟩])
    (hsmall : done.length + spilled.length < 2 ^ 31)
    (hroom : depth s.stack + 4 ≤ ctx.maxStack) :
    ∃ calls, Undispatched dispatcher calls ∧
      performAll ctx (storeArgumentsActions done.length spilled) s = .ok () { s with
        arrays := arrays ++ [⟨"java/lang/Object", done ++ boxes⟩]
        calls := s.calls ++ calls } := by
  induction spilled generalizing s arguments done boxes with
  | nil =>
    obtain rfl : boxes = [] := List.map_eq_nil_iff.mp hboxes.symm
    refine ⟨[], undispatched_nil dispatcher, ?_⟩
    rw [List.length_nil, List.replicate_zero] at harrays
    rw [← harrays, List.append_nil]
    rfl
  | cons spill spilled ih =>
    obtain ⟨value, arguments, hvalue, hlater, rfl⟩ := List.forall₂_cons_left_iff.mp hholds
    rw [List.map_cons, List.zipWith_cons_cons] at hboxes
    obtain ⟨r, boxes, rfl, hr, hrest⟩ := List.map_eq_cons_iff.mp hboxes.symm
    rw [List.length_cons] at hsmall
    rw [List.length_cons, List.replicate_succ] at harrays
    have harray : s.arrays[arrays.length]? = some ⟨"java/lang/Object",
        done ++ .null :: List.replicate spilled.length .null⟩ := by
      rw [harrays]
      exact List.getElem?_concat_length
    have hposition : done.length <
        (done ++ Ref.null :: List.replicate spilled.length .null).length := by simp
    obtain ⟨calls, hcalls, hfirst⟩ := performAll_storeArgumentActions dispatcher
      hvalue hr.symm hstack harray hposition (by omega) hroom
    have hset : (done ++ Ref.null :: List.replicate spilled.length .null).set done.length r =
        (done ++ [r]) ++ List.replicate spilled.length .null := by
      rw [List.set_append_right _ _ (Nat.le_refl _), Nat.sub_self, List.set_cons_zero,
        List.append_assoc]
      rfl
    rw [hset, harrays, List.set_append_right _ _ (Nat.le_refl _), Nat.sub_self,
      List.set_cons_zero] at hfirst
    obtain ⟨calls', hcalls', hrun⟩ := ih (s := { s with
      arrays := arrays ++ [⟨"java/lang/Object",
        (done ++ [r]) ++ List.replicate spilled.length .null⟩]
      calls := s.calls ++ calls }) (done ++ [r]) hlater hrest.symm hstack rfl
      (by rw [List.length_append, List.length_singleton]; omega) hroom
    rw [List.length_append, List.length_singleton] at hrun
    refine ⟨calls ++ calls', hcalls.append hcalls', ?_⟩
    rw [storeArgumentsActions, performAll_append hfirst, hrun]
    simp only [List.append_assoc, List.cons_append, List.nil_append]

/-! ## The class of the result -/

theorem performAll_primitiveClass (dispatcher : Dispatcher) {className : String}
    {type : ReturnType} (hwrapped : wrapped? className = some type)
    (hroom : depth s.stack + 1 ≤ ctx.maxStack) :
    ∃ calls, Undispatched dispatcher calls ∧ performAll ctx [.getStatic (typeField className)] s =
      .ok () { s with
        stack := .ref (.primitiveClass type) :: s.stack, calls := s.calls ++ calls } := by
  have hget : perform ctx (.getStatic (typeField className)) s = _ :=
    perform_getStatic hwrapped rfl rfl hroom
  refine ⟨[], undispatched_nil dispatcher, ?_⟩
  rw [performAll_cons hget, List.append_nil]
  rfl

/-- Asking for a class by its name is the only thing that can fail. -/
theorem performAll_returnClassActions (dispatcher : Dispatcher) (majorVersion : UInt16)
    (ret : ReturnType) (hroom : depth s.stack + 1 ≤ ctx.maxStack) :
    ∃ calls, Undispatched dispatcher calls ∧
      performAll ctx (returnClassActions majorVersion ret) s =
        match returnClass ctx.world majorVersion ret with
        | .ok r => .ok () { s with stack := .ref r :: s.stack, calls := s.calls ++ calls }
        | .error e => .error (.threw e) { s with calls := s.calls ++ calls } := by
  cases ret with
  | void => exact performAll_primitiveClass dispatcher (by decide) hroom
  | value type =>
    cases hwrapper : type.wrapper? with
    | some wrapper =>
      simp only [returnClassActions, returnClass, hwrapper, className?_eq_none hwrapper]
      exact performAll_primitiveClass dispatcher (wrapped?_wrapper hwrapper) hroom
    | none =>
      obtain ⟨name, hname⟩ : ∃ name, type.className? = some name := by
        cases type <;> first | exact ⟨_, rfl⟩ | cases hwrapper
      simp only [returnClassActions, returnClass, hwrapper, hname]
      by_cases hversion : classLiteralVersion ≤ majorVersion
      · refine ⟨[], undispatched_nil dispatcher, ?_⟩
        rw [if_pos hversion, if_pos hversion, performAll_cons (perform_push hroom), List.append_nil]
        rfl
      · refine ⟨[⟨forName, [.ref (.string (binaryName name))], s.arrays⟩],
          undispatched_singleton forName_ne_dispatcher, ?_⟩
        have hforName : perform ctx (.invokeStatic forName)
            { s with stack := .ref (.string (binaryName name)) :: s.stack } =
              pushResult ctx (ctx.world.forName (binaryName name))
                (s.called forName [.ref (.string (binaryName name))]) := perform_forName rfl
        rw [if_neg hversion, if_neg hversion, performAll_cons (perform_push hroom)]
        cases hfound : ctx.world.forName (binaryName name) with
        | ok r =>
          rw [hfound] at hforName
          exact performAll_cons (hforName.trans (push_eq_ok hroom))
        | error e =>
          rw [hfound] at hforName
          exact performAll_cons_error hforName

/-! ## The result -/

/-- Only a box of the type gives a value. Null passes the cast and has none to give. -/
theorem performAll_unbox (dispatcher : Dispatcher) {type : FieldType} {wrapper : Wrapper} {r : Ref}
    {rest : List Value} (hwrapper : type.wrapper? = some wrapper) (hstack : s.stack = .ref r :: rest)
    (hroom : depth rest + 2 ≤ ctx.maxStack) :
    ∃ calls, Undispatched dispatcher calls ∧
      performAll ctx [.cast wrapper.className, .invokeVirtual (unboxMethod type wrapper)] s =
        match adapt ctx.world (.value type) r with
        | .ok values => .ok () { s with stack := values ++ rest, calls := s.calls ++ calls }
        | .error e => .error (.threw e) { s with stack := rest, calls := s.calls ++ calls } := by
  have hcast : perform ctx (.cast wrapper.className) s = _ := perform_cast hstack (by omega)
  have hinstance := isInstance_wrapper ctx.world hwrapper r
  have hnone := className?_eq_none hwrapper
  by_cases hbox : ∃ value : Primitive, r = .boxed value ∧ value.type = type
  · obtain ⟨value, rfl, rfl⟩ := hbox
    have hslots := slots_le_two value.toValue
    rw [if_pos (.inr (hinstance.mpr ⟨value, rfl, rfl⟩))] at hcast
    refine ⟨[⟨unboxMethod value.type wrapper, [.ref (.boxed value)], s.arrays⟩],
      undispatched_singleton (unboxMethod_ne_dispatcher hwrapper), ?_⟩
    rw [performAll_cons hcast, performAll_cons (perform_unboxing (parse?_unboxMethod hwrapper)
      (unboxing?_unboxMethod hwrapper) rfl (by omega))]
    simp only [adapt, hnone, if_true]
    rfl
  by_cases hnull : r = .null
  · subst hnull
    rw [if_pos (.inl rfl)] at hcast
    refine ⟨[⟨unboxMethod type wrapper, [.ref .null], s.arrays⟩],
      undispatched_singleton (unboxMethod_ne_dispatcher hwrapper), ?_⟩
    rw [performAll_cons hcast,
      performAll_cons_error (perform_unboxing_null (parse?_unboxMethod hwrapper) rfl)]
    simp only [adapt, hnone]
    rfl
  · rw [if_neg (not_or.mpr ⟨hnull, fun h => hbox (hinstance.mp h)⟩)] at hcast
    refine ⟨[], undispatched_nil dispatcher, ?_⟩
    have hadapt : adapt ctx.world (.value type) r = .error .classCast := by
      simp only [adapt, hnone]
      cases r with
      | null => exact absurd rfl hnull
      | boxed value => exact if_neg fun h => hbox ⟨value, rfl, h⟩
      | _ => rfl
    rw [performAll_cons_error hcast, hadapt, List.append_nil]

theorem performAll_adaptActions (dispatcher : Dispatcher) (ret : ReturnType) {r : Ref}
    {rest : List Value} (hstack : s.stack = .ref r :: rest)
    (hroom : depth rest + 2 ≤ ctx.maxStack) :
    ∃ calls, Undispatched dispatcher calls ∧
      performAll ctx (adaptActions ret) s =
        match adapt ctx.world ret r with
        | .ok values => .ok () { s with stack := values ++ rest, calls := s.calls ++ calls }
        | .error e => .error (.threw e) { s with stack := rest, calls := s.calls ++ calls } := by
  cases ret with
  | void =>
    refine ⟨[], undispatched_nil dispatcher, ?_⟩
    show performAll ctx [.pop] s = _
    rw [performAll_cons (perform_pop hstack rfl), List.append_nil]
    rfl
  | value type =>
    cases hwrapper : type.wrapper? with
    | some wrapper =>
      simp only [adaptActions, hwrapper]
      exact performAll_unbox dispatcher hwrapper hstack hroom
    | none =>
      obtain ⟨name, hname⟩ : ∃ name, type.className? = some name := by
        cases type <;> first | exact ⟨_, rfl⟩ | cases hwrapper
      refine ⟨[], undispatched_nil dispatcher, ?_⟩
      simp only [adaptActions, adapt, hwrapper, hname, List.append_nil]
      have hcast : perform ctx (.cast name) s = _ := perform_cast hstack (by omega)
      by_cases hclass : r = .null ∨ isInstance ctx.world r name
      · rw [if_pos hclass] at hcast ⊢
        exact performAll_cons hcast
      · rw [if_neg hclass] at hcast ⊢
        exact performAll_cons_error hcast

/-! ## The whole call -/

/-- What the dispatcher is called with. -/
def dispatch (site : Site) (call : Call) (receiver cls : Ref) (boxes : List Ref)
    (arrays : List RefArray) : Invocation where
  method := dispatchMethod site.dispatcher
  arguments := [.ref (if call.isStatic then .null else receiver), .ref (.string call.key.text),
    .ref cls, .ref (.array arrays.length)]
  arrays := arrays ++ [⟨"java/lang/Object", boxes⟩]

theorem performAll_receiverActions {isStatic : Bool} {receiver : Ref} {below : List Value}
    (hstack : s.stack = (if isStatic then [] else [.ref receiver]) ++ below)
    (hroom : depth below + 1 ≤ ctx.maxStack) :
    performAll ctx (receiverActions isStatic) s =
      .ok () { s with stack := .ref (if isStatic then .null else receiver) :: below } := by
  cases isStatic with
  | true =>
    obtain rfl : s.stack = below := hstack
    exact performAll_cons (perform_push hroom)
  | false =>
    have hsame : s = { s with stack := .ref receiver :: below } := by
      rw [← show s.stack = .ref receiver :: below from hstack]
    exact congrArg (EStateM.Result.ok ()) hsame

/-- The boxed arguments end up in a new array, in their order. -/
theorem performAll_pack (dispatcher : Dispatcher) {spilled : List Spill} {arguments : List Value}
    {boxes : List Ref}
    (hholds : List.Forall₂ (fun spill value => Holds s.locals spill.slot.toNat value)
      spilled arguments)
    (hboxes : List.zipWith box? (spilled.map Spill.type) arguments = boxes.map some)
    (hsmall : spilled.length < 2 ^ 31) (hroom : depth s.stack + 5 ≤ ctx.maxStack) :
    ∃ calls, Undispatched dispatcher calls ∧
      performAll ctx ([.push (.int (Int32.ofNat spilled.length)), .newArray "java/lang/Object"] ++
        storeArgumentsActions 0 spilled) s = .ok () { s with
          stack := .ref (.array s.arrays.length) :: s.stack
          arrays := s.arrays ++ [⟨"java/lang/Object", boxes⟩]
          calls := s.calls ++ calls } := by
  have hcount : (Int32.ofNat spilled.length).toInt = spilled.length :=
    Int32.toInt_ofNat_of_lt hsmall
  have hpush : perform ctx (.push (.int (Int32.ofNat spilled.length))) s =
      .ok () { s with stack := .int (Int32.ofNat spilled.length) :: s.stack } :=
    perform_push (by rw [slots_int]; omega)
  have hnew : perform ctx (.newArray "java/lang/Object")
      { s with stack := .int (Int32.ofNat spilled.length) :: s.stack } = .ok () { s with
        stack := .ref (.array s.arrays.length) :: s.stack
        arrays := s.arrays ++ [⟨"java/lang/Object",
          List.replicate (Int32.ofNat spilled.length).toInt.toNat .null⟩] } :=
    perform_newArray rfl (ofNat_nonneg hsmall) (by omega)
  rw [hcount, Int.toNat_natCast] at hnew
  obtain ⟨calls, hcalls, hrun⟩ := performAll_storeArgumentsActions dispatcher (s := { s with
    stack := .ref (.array s.arrays.length) :: s.stack
    arrays := s.arrays ++ [⟨"java/lang/Object", List.replicate spilled.length .null⟩] })
    [] hholds hboxes rfl rfl (by rw [List.length_nil]; omega)
    (by rw [depth_cons, slots_ref]; omega : _ ≤ ctx.maxStack)
  exact ⟨calls, hcalls, (performAll_cons hpush).trans ((performAll_cons hnew).trans hrun)⟩

/-- The dispatcher is called once, and its result is adapted. -/
theorem performAll_dispatch (dispatcher : Dispatcher) (ret : ReturnType) {key : String}
    {receiver cls packed : Ref} {below : List Value}
    (hstack : s.stack = .ref packed :: .ref cls :: .ref (.string key) :: .ref receiver :: below)
    (hroom : depth below + 2 ≤ ctx.maxStack) :
    let i : Invocation := ⟨dispatchMethod dispatcher,
      [.ref receiver, .ref (.string key), .ref cls, .ref packed], s.arrays⟩
    ∃ calls s', Undispatched dispatcher calls ∧ s'.calls = s.calls ++ i :: calls ∧
      s'.locals = s.locals ∧
      match outcome ctx.world ret i with
      | .error e => performAll ctx (.invokeStatic (dispatchMethod dispatcher) :: adaptActions ret) s =
          .error (.threw e) s'
      | .ok (values, arrays) =>
        performAll ctx (.invokeStatic (dispatchMethod dispatcher) :: adaptActions ret) s =
          .ok () s' ∧ s'.stack = values ++ below ∧ s'.arrays = arrays := by
  intro i
  have hforName : dispatchMethod dispatcher ≠ forName := by
    intro h
    exact forName_ne_dispatcher (congrArg MemberRef.descriptor h).symm
  have htypes : List.Forall₂ HasType i.arguments [.object "java/lang/Object",
      .object "java/lang/String", .object "java/lang/Class", .array (.object "java/lang/Object")] :=
    .cons ⟨_, rfl⟩ (.cons ⟨_, rfl⟩ (.cons ⟨_, rfl⟩ (.cons ⟨_, rfl⟩ .nil)))
  have hcall : perform ctx (.invokeStatic (dispatchMethod dispatcher)) s = _ :=
    perform_invokeStatic (boxing?_dispatchMethod dispatcher) hforName parse?_dispatcher htypes hstack
  cases hinvoke : ctx.world.invoke i with
  | error e =>
    have houtcome : outcome ctx.world ret i = .error e := by
      rw [outcome, hinvoke]
      rfl
    rw [houtcome]
    rw [hinvoke] at hcall
    exact ⟨[], { s with stack := below, calls := s.calls ++ [i] }, undispatched_nil dispatcher,
      rfl, rfl, performAll_cons_error hcall⟩
  | ok result =>
    obtain ⟨r, arrays⟩ := result
    have houtcome : outcome ctx.world ret i =
        (adapt ctx.world ret r).map fun values => (values, arrays) := by
      rw [outcome, hinvoke]
      rfl
    rw [hinvoke] at hcall
    have hpush : push ctx (.ref r)
        { { s with stack := below }.called (dispatchMethod dispatcher) i.arguments with arrays } =
          .ok () { s with stack := .ref r :: below, arrays, calls := s.calls ++ [i] } :=
      push_eq_ok (by show depth below + 1 ≤ _; omega)
    obtain ⟨calls, hcalls, hadapt⟩ := performAll_adaptActions dispatcher ret (s := { s with
      stack := .ref r :: below, arrays, calls := s.calls ++ [i] }) rfl hroom
    rw [List.append_assoc] at hadapt
    have hrun := (performAll_cons (hcall.trans hpush)).trans hadapt
    rw [houtcome]
    cases hresult : adapt ctx.world ret r with
    | error e =>
      rw [hresult] at hrun
      exact ⟨calls, { s with stack := below, arrays, calls := s.calls ++ i :: calls }, hcalls,
        rfl, rfl, hrun⟩
    | ok values =>
      rw [hresult] at hrun
      exact ⟨calls, { s with stack := values ++ below, arrays, calls := s.calls ++ i :: calls },
        hcalls, rfl, rfl, hrun, rfl, rfl⟩

theorem exists_boxes {arguments : List Value} {types : List FieldType}
    (h : List.Forall₂ HasType arguments types) :
    ∃ boxes : List Ref, List.zipWith box? types arguments = boxes.map some := by
  induction h with
  | nil => exact ⟨[], rfl⟩
  | cons hvalue _ ih =>
    obtain ⟨r, hr⟩ := hvalue
    obtain ⟨boxes, hboxes⟩ := ih
    exact ⟨r :: boxes, by rw [List.zipWith_cons_cons, hr, hboxes, List.map_cons]⟩

theorem dispatches_of_undispatched {dispatcher : Dispatcher} {s s' : State}
    {calls : List Invocation} (hcalls : s'.calls = s.calls ++ calls)
    (h : Undispatched dispatcher calls) : dispatches dispatcher s' = dispatches dispatcher s := by
  rw [dispatches, hcalls, List.filter_append, h.filter, List.append_nil]
  rfl

/-- The arguments are put away, and the receiver and the key pushed. -/
theorem performAll_operandActions {isStatic : Bool} (text : String) {next last : UInt16}
    {types : List FieldType} {spilled : List Spill} {receiver : Ref} {arguments below : List Value}
    (hspills : spills next types = .ok (spilled, last))
    (hstack : s.stack = operands isStatic receiver arguments ++ below)
    (htypes : List.Forall₂ HasType arguments types)
    (hroom : depth below + 2 ≤ ctx.maxStack) (hlocals : last.toNat ≤ ctx.maxLocals) :
    ∃ locals, List.Forall₂ (fun spill value => Holds locals spill.slot.toNat value)
        spilled arguments ∧
      (∀ n, n < next.toNat ∨ last.toNat ≤ n → locals n = s.locals n) ∧
      ∀ rest, performAll ctx (storeActions spilled ++ (receiverActions isStatic ++
          ([.push (.ref (.string text))] ++ rest))) s =
        performAll ctx rest { s with
          stack := .ref (.string text) :: .ref (if isStatic then .null else receiver) :: below
          locals } := by
  rw [operands, List.append_assoc] at hstack
  obtain ⟨locals, hstores, hholds, hframe⟩ :=
    performAll_storeActions hspills htypes hstack hlocals
  refine ⟨locals, hholds, hframe, fun rest => ?_⟩
  have hreceiver := performAll_receiverActions (s := { s with
    stack := (if isStatic then [] else [.ref receiver]) ++ below, locals }) rfl
    (by omega : depth below + 1 ≤ ctx.maxStack)
  have hkey : performAll ctx [.push (.ref (.string text))] { s with
      stack := .ref (if isStatic then .null else receiver) :: below, locals } =
        .ok () { s with
          stack := .ref (.string text) :: .ref (if isStatic then .null else receiver) :: below
          locals } :=
    performAll_cons (perform_push (by simp only [depth_cons, slots_ref]; omega))
  rw [performAll_append hstores, performAll_append hreceiver, performAll_append hkey]

/-- Performing a plan. The stages follow each other as in its definition: the arguments are
put away, the operands of the dispatcher pushed, and the dispatcher called. -/
theorem performAll_plan {site : Site} {call : Call} {spilled : List Spill} {last : UInt16}
    {receiver : Ref} {arguments below : List Value} {boxes : List Ref}
    (hspills : spills site.scratch call.descriptor.params = .ok (spilled, last))
    (hstack : s.stack = operands call.isStatic receiver arguments ++ below)
    (htypes : List.Forall₂ HasType arguments call.descriptor.params)
    (hboxes : List.zipWith box? call.descriptor.params arguments = boxes.map some)
    (hroom : depth below + stackHeadroom ≤ ctx.maxStack) (hlocals : last.toNat ≤ ctx.maxLocals) :
    ∃ s', (∀ n, n < site.scratch.toNat ∨ last.toNat ≤ n → s'.locals n = s.locals n) ∧
      match returnClass ctx.world site.majorVersion call.descriptor.ret with
      | .error e => performAll ctx (plan site call spilled) s = .error (.threw e) s' ∧
          dispatches site.dispatcher s' = dispatches site.dispatcher s
      | .ok cls =>
        dispatches site.dispatcher s' =
          dispatches site.dispatcher s ++ [dispatch site call receiver cls boxes s.arrays] ∧
        match outcome ctx.world call.descriptor.ret
          (dispatch site call receiver cls boxes s.arrays) with
        | .error e => performAll ctx (plan site call spilled) s = .error (.threw e) s'
        | .ok (values, arrays) => performAll ctx (plan site call spilled) s = .ok () s' ∧
            s'.stack = values ++ below ∧ s'.arrays = arrays := by
  have hroom' : depth below + 8 ≤ ctx.maxStack := hroom
  have hsmall : spilled.length < 2 ^ 31 := by
    have hlength := spills_length hspills
    have hlast := last.toNat_lt
    omega
  obtain ⟨locals, hholds, hframe, hfront⟩ :=
    performAll_operandActions call.key.text hspills hstack htypes (by omega) hlocals
  obtain ⟨calls₁, hcalls₁, hclass⟩ := performAll_returnClassActions site.dispatcher
    site.majorVersion call.descriptor.ret (s := { s with
      stack := .ref (.string call.key.text) ::
        .ref (if call.isStatic then .null else receiver) :: below
      locals }) (by simp only [depth_cons, slots_ref]; omega : _ ≤ ctx.maxStack)
  rw [plan, hfront]
  cases hcls : returnClass ctx.world site.majorVersion call.descriptor.ret with
  | error e =>
    rw [hcls] at hclass
    exact ⟨_, hframe, performAll_append_error hclass, dispatches_of_undispatched rfl hcalls₁⟩
  | ok cls =>
    rw [hcls] at hclass
    obtain ⟨calls₂, hcalls₂, hpack⟩ := performAll_pack site.dispatcher (s := { s with
      stack := .ref cls :: .ref (.string call.key.text) ::
        .ref (if call.isStatic then .null else receiver) :: below
      locals
      calls := s.calls ++ calls₁ }) hholds (by rw [spills_types hspills]; exact hboxes)
      hsmall (by simp only [depth_cons, slots_ref]; omega : _ ≤ ctx.maxStack)
    obtain ⟨calls₃, s', hcalls₃, hlog, hkeep, hresult⟩ := performAll_dispatch site.dispatcher
      call.descriptor.ret (s := { s with
        stack := .ref (.array s.arrays.length) :: .ref cls :: .ref (.string call.key.text) ::
          .ref (if call.isStatic then .null else receiver) :: below
        locals
        arrays := s.arrays ++ [⟨"java/lang/Object", boxes⟩]
        calls := s.calls ++ calls₁ ++ calls₂ }) rfl (by omega : depth below + 2 ≤ ctx.maxStack)
    refine ⟨s', fun n hn => by rw [hkeep]; exact hframe n hn, ?_, ?_⟩
    · rw [dispatches, hlog, List.filter_append, List.filter_append, List.filter_append,
        hcalls₁.filter, hcalls₂.filter, List.filter_cons_of_pos (by rw [decide_eq_true_eq]),
        hcalls₃.filter, List.append_nil, List.append_nil]
      rfl
    · rw [performAll_append hclass, ← List.append_assoc, performAll_append hpack]
      exact hresult

/-- **A redirected call.** Whatever the operands of the call are, the dispatcher is called
with its receiver, its key, the class of its result and its boxed arguments, and that
exactly once; then the operands are gone and the adapted result of the dispatcher is there.
Only locals from the scratch local on are written, and the stack never grows beyond what
it was at the call or its headroom. The call ends early only by an exception of the loader,
of the dispatcher, or of a result that does not fit. -/
theorem run_sequence {site : Site} {call : Call} {pool pool' later : ConstantPool}
    {replaced : Sequence} (hsequence : sequence site call pool = .ok replaced pool')
    (hlater : pool'.Grows later) {receiver : Ref} {arguments below : List Value}
    (hstack : s.stack = operands call.isStatic receiver arguments ++ below)
    (htypes : List.Forall₂ HasType arguments call.descriptor.params)
    (hroom : max (depth s.stack) (depth below + stackHeadroom) ≤ ctx.maxStack)
    (hlocals : site.scratch.toNat + replaced.used.toNat ≤ ctx.maxLocals) :
    replaced.used.toNat = (call.descriptor.params.map FieldType.slots).sum ∧
    ∃ boxes s', List.zipWith box? call.descriptor.params arguments = boxes.map some ∧
      (∀ n, n < site.scratch.toNat ∨ site.scratch.toNat + replaced.used.toNat ≤ n →
        s'.locals n = s.locals n) ∧
      match returnClass ctx.world site.majorVersion call.descriptor.ret with
      | .error e => run ctx later replaced.instructions s = .error (.threw e) s' ∧
          dispatches site.dispatcher s' = dispatches site.dispatcher s
      | .ok cls =>
        dispatches site.dispatcher s' =
          dispatches site.dispatcher s ++ [dispatch site call receiver cls boxes s.arrays] ∧
        match outcome ctx.world call.descriptor.ret
          (dispatch site call receiver cls boxes s.arrays) with
        | .error e => run ctx later replaced.instructions s = .error (.threw e) s'
        | .ok (values, arrays) => run ctx later replaced.instructions s = .ok () s' ∧
            s'.stack = values ++ below ∧ s'.arrays = arrays := by
  obtain ⟨-, hyields⟩ := yields_sequence site call pool replaced pool' hsequence
  obtain ⟨spilled, last, hspills, hused, hresolves⟩ := hyields later hlater
  have hlast := spills_last hspills
  have hsum : replaced.used.toNat = (call.descriptor.params.map FieldType.slots).sum := by
    rw [hused, UInt16.toNat_sub_of_le _ _ (UInt16.le_iff_toNat_le.mpr (by omega))]
    omega
  obtain ⟨boxes, hboxes⟩ := exists_boxes htypes
  have hend : site.scratch.toNat + replaced.used.toNat = last.toNat := by omega
  rw [hend] at hlocals ⊢
  obtain ⟨s', hframe, hrun⟩ := performAll_plan hspills hstack htypes hboxes
    (Nat.le_trans (Nat.le_max_right _ _) hroom) hlocals
  rw [run_eq_performAll (Success.option_mapM.mpr hresolves)]
  exact ⟨hsum, boxes, s', hboxes, hframe, hrun⟩

/-- A call of an instance method with a `long` and a reference, in a world whose dispatcher
gives back a boxed `long`. -/
theorem run_sequence_longAndReference :
    ∃ replaced pool' s', sequence ⟨3, 52, ⟨"hook/Hook", "dispatch"⟩⟩
        ⟨⟨"Lcom/a/B;m(JLjava/lang/Object;)J"⟩, ⟨[.long, .object "java/lang/Object"], .value .long⟩,
          false⟩ .empty = .ok replaced pool' ∧
      replaced.used.toNat = 3 ∧
      run ⟨⟨fun _ _ => false, fun _ => .ok .null, fun i => .ok (.boxed (.long 7), i.arrays)⟩, 9, 6⟩
        pool' replaced.instructions
        ⟨[.ref (.other 2), .long 5, .ref (.other 1), .int 4], fun _ => .empty, [], []⟩ =
          .ok () s' ∧
      s'.stack = [.long 7, .int 4] ∧
      s'.arrays = [⟨"java/lang/Object", [.boxed (.long 5), .other 2]⟩] := by
  have hmakes : (match sequence ⟨3, 52, ⟨"hook/Hook", "dispatch"⟩⟩
      ⟨⟨"Lcom/a/B;m(JLjava/lang/Object;)J"⟩, ⟨[.long, .object "java/lang/Object"], .value .long⟩,
        false⟩ .empty with
      | .ok replaced _ => decide (replaced.used = 3)
      | .error _ _ => false) = true := by
    decide +kernel
  split at hmakes
  · rename_i replaced pool' h
    have hused : replaced.used = 3 := of_decide_eq_true hmakes
    obtain ⟨hsum, boxes, s', hboxes, hframe, hcalls, hrun, hstack, harrays⟩ :=
      @run_sequence ⟨⟨fun _ _ => false, fun _ => .ok .null,
          fun i => .ok (.boxed (.long 7), i.arrays)⟩, 9, 6⟩
        ⟨[.ref (.other 2), .long 5, .ref (.other 1), .int 4], fun _ => .empty, [], []⟩ _ _ _ _ _ _ h
        (.refl pool') (.other 1) [.long 5, .ref (.other 2)] [.int 4] rfl
        (.cons ⟨_, rfl⟩ (.cons ⟨_, rfl⟩ .nil)) (by decide) (by rw [hused]; decide)
    have hvalues : [.boxed (.long 5), .other 2] = boxes :=
      List.map_injective_iff.mpr (Option.some_injective _) hboxes
    refine ⟨replaced, pool', s', h, by rw [hused]; rfl, hrun, hstack, ?_⟩
    rw [hvalues]
    exact harrays
  · cases hmakes

end ClassPatch.Redirect
