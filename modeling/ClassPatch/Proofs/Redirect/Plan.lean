import Mathlib
import ClassPatch.Proofs.ConstantPool.Intern
import ClassPatch.Proofs.Machine.Action
import ClassPatch.Rewrite.Redirect

/-!
# The plan of a redirected call

The actions that the instructions of a redirected call resolve to, written down without
a constant pool. `yields_sequence` says that the instructions resolve to them in the pool
that making them leaves behind, and in every pool that grows from it.
-/

namespace ClassPatch.Redirect

open Code ConstantPool Machine

/-! ## Actions -/

/-- The field of a wrapper class that holds the class of what it wraps. -/
def typeField (className : String) : MemberRef where
  owner := className
  name := "TYPE"
  descriptor := "Ljava/lang/Class;"
  isInterface := false

/-- The method that boxes the values of a primitive type. -/
def boxMethod (type : FieldType) (wrapper : Wrapper) : MemberRef where
  owner := wrapper.className
  name := "valueOf"
  descriptor := "(" ++ type.text ++ ")L" ++ wrapper.className ++ ";"
  isInterface := false

/-- The method that gives the value of a box back. -/
def unboxMethod (type : FieldType) (wrapper : Wrapper) : MemberRef where
  owner := wrapper.className
  name := wrapper.unboxing
  descriptor := "()" ++ type.text
  isInterface := false

/-- The method of a dispatcher. -/
def dispatchMethod (dispatcher : Dispatcher) : MemberRef where
  owner := dispatcher.owner
  name := dispatcher.name
  descriptor := Dispatcher.descriptor
  isInterface := false

/-- The name of a class as `Class.forName` takes it. -/
def binaryName (name : String) : String :=
  String.ofList (name.toList.map fun c => if c = '/' then '.' else c)

/-- Move the arguments into their locals, the last one first. -/
def storeActions (spilled : List Spill) : List Action :=
  spilled.reverse.map fun s => .store (kindOf s.type) s.slot

/-- Push the class of a result. -/
def returnClassActions (majorVersion : UInt16) : ReturnType → List Action
  | .void => [.getStatic (typeField "java/lang/Void")]
  | .value type =>
    match type.wrapper?, type.className? with
    | some wrapper, _ => [.getStatic (typeField wrapper.className)]
    | none, some name =>
      if classLiteralVersion ≤ majorVersion then [.push (.ref (.classNamed name))]
      else [.push (.ref (.string (binaryName name))), .invokeStatic forName]
    | none, none => []

/-- Box a value of a primitive type. -/
def boxActions (type : FieldType) : List Action :=
  match type.wrapper? with
  | some wrapper => [.invokeStatic (boxMethod type wrapper)]
  | none => []

/-- Put an argument into the array on the stack. -/
def storeArgumentActions (position : Nat) (spill : Spill) : List Action :=
  [.dup, .push (.int (Int32.ofNat position)), .load (kindOf spill.type) spill.slot] ++
    boxActions spill.type ++ [.storeElement]

/-- Put the arguments from a position on into the array on the stack. -/
def storeArgumentsActions (position : Nat) : List Spill → List Action
  | [] => []
  | spill :: rest => storeArgumentActions position spill ++ storeArgumentsActions (position + 1) rest

/-- Make a result of the call out of that of the dispatcher. -/
def adaptActions : ReturnType → List Action
  | .void => [.pop]
  | .value type =>
    match type.wrapper?, type.className? with
    | some wrapper, _ => [.cast wrapper.className, .invokeVirtual (unboxMethod type wrapper)]
    | none, some name => [.cast name]
    | none, none => []

/-- Push the receiver of a static call, which is null. -/
def receiverActions (isStatic : Bool) : List Action :=
  if isStatic then [.push (.ref .null)] else []

/-- What takes the place of a call whose arguments go to the given locals. -/
def plan (site : Site) (call : Call) (spilled : List Spill) : List Action :=
  storeActions spilled ++ (receiverActions call.isStatic ++ ([.push (.ref (.string call.key.text))] ++
    (returnClassActions site.majorVersion call.descriptor.ret ++
    ([.push (.int (Int32.ofNat spilled.length)), .newArray "java/lang/Object"] ++
    (storeArgumentsActions 0 spilled ++
    ([.invokeStatic (dispatchMethod site.dispatcher)] ++ adaptActions call.descriptor.ret))))))

/-! ## Resolving -/

/-- The instructions resolve to the actions. -/
def Resolves {τ : Type} (pool : ConstantPool) (is : List (Instruction τ))
    (actions : List Action) : Prop :=
  List.Forall₂ (fun i a => action? pool i = some a) is actions

theorem Resolves.append {τ : Type} {pool : ConstantPool} {is js : List (Instruction τ)}
    {as bs : List Action} (hi : Resolves pool is as) (hj : Resolves pool js bs) :
    Resolves pool (is ++ js) (as ++ bs) :=
  List.rel_append hi hj

theorem resolves_singleton {τ : Type} {pool : ConstantPool} {i : Instruction τ} {a : Action}
    (h : action? pool i = some a) : Resolves pool [i] [a] :=
  .cons h .nil

theorem yields_onConstant {opcode : UInt8} {x : PoolEdit UInt16}
    {P : ConstantPool → UInt16 → Prop} {a : Action} (hx : x.Yields P)
    (h : ∀ pool index, P pool index → constantAction? pool opcode index = some a) :
    (onConstant opcode x).Yields fun pool i => action? pool i = some a := by
  refine (hx.map (Instruction.ofConstant opcode)).mono fun pool i hi => ?_
  obtain ⟨index, hindex, rfl⟩ := hi
  exact h pool index hindex

theorem loadAction?_eq_some {pool : ConstantPool} {index : UInt16} {c : Constant} {value : Value}
    {slots : Nat} (hget : pool.get index = .ok c) (hvalue : constantValue? pool c = some value)
    (hslots : value.slots = slots) : loadAction? pool slots index = some (.push value) := by
  rw [loadAction?, hget]
  show (constantValue? pool c).bind _ = _
  rw [hvalue]
  exact if_pos hslots

theorem constantAction?_string {pool : ConstantPool} {index textIndex : UInt16} {text : String}
    (hget : pool.get index = .ok (.string textIndex)) (htext : pool.getText textIndex = .ok text) :
    constantAction? pool Opcode.ldc index = some (.push (.ref (.string text))) := by
  have hvalue : constantValue? pool (.string textIndex) = some (.ref (.string text)) := by
    rw [constantValue?, htext]
    rfl
  exact loadAction?_eq_some hget hvalue rfl

theorem yields_loadString (text : String) :
    (onConstant Opcode.ldc (internString text)).Yields fun pool i =>
      action? pool i = some (.push (.ref (.string text))) := by
  refine yields_onConstant (yields_internString text) fun pool index h => ?_
  obtain ⟨textIndex, hget, htext⟩ := h
  exact constantAction?_string hget htext

theorem get_of_getClassName {pool : ConstantPool} {index : UInt16} {name : String}
    (h : pool.getClassName index = .ok name) :
    ∃ nameIndex, pool.get index = .ok (.classRef nameIndex) ∧ pool.getText nameIndex = .ok name := by
  obtain ⟨c, hget, hc⟩ := Success.except_bind.mp h
  cases c with
  | classRef nameIndex => exact ⟨nameIndex, hget, hc⟩
  | _ => cases hc

theorem yields_loadClass (name : String) :
    (onConstant Opcode.ldc (internClass name)).Yields fun pool i =>
      action? pool i = some (.push (.ref (.classNamed name))) := by
  refine yields_onConstant (yields_internClass name) fun pool index h => ?_
  obtain ⟨nameIndex, hget, hname⟩ := get_of_getClassName h
  have hvalue : constantValue? pool (.classRef nameIndex) = some (.ref (.classNamed name)) := by
    rw [constantValue?, hname]
    rfl
  exact loadAction?_eq_some hget hvalue rfl

theorem yields_newArray (name : String) :
    (onConstant Opcode.anewarray (internClass name)).Yields fun pool i =>
      action? pool i = some (.newArray name) := by
  refine yields_onConstant (yields_internClass name) fun pool index h => ?_
  show (pool.getClassName index).toOption.map Action.newArray = _
  rw [h]
  rfl

theorem yields_cast (name : String) :
    (onConstant Opcode.checkcast (internClass name)).Yields fun pool i =>
      action? pool i = some (.cast name) := by
  refine yields_onConstant (yields_internClass name) fun pool index h => ?_
  show (pool.getClassName index).toOption.map Action.cast = _
  rw [h]
  rfl

theorem yields_getStatic (owner name descriptor : String) :
    (onConstant Opcode.getstatic (internField owner name descriptor)).Yields fun pool i =>
      action? pool i = some (.getStatic { owner, name, descriptor, isInterface := false }) := by
  refine yields_onConstant (yields_internMember .field owner name descriptor) fun pool index h => ?_
  show (pool.getMember index).toOption.map Action.getStatic = _
  rw [h]
  rfl

theorem yields_invokeStatic (owner name descriptor : String) :
    (onConstant Opcode.invokestatic (internMethod owner name descriptor)).Yields fun pool i =>
      action? pool i = some (.invokeStatic { owner, name, descriptor, isInterface := false }) := by
  refine yields_onConstant (yields_internMember .method owner name descriptor) fun pool index h => ?_
  show (pool.getMember index).toOption.map Action.invokeStatic = _
  rw [h]
  rfl

theorem yields_invokeVirtual (owner name descriptor : String) :
    (onConstant Opcode.invokevirtual (internMethod owner name descriptor)).Yields fun pool i =>
      action? pool i = some (.invokeVirtual { owner, name, descriptor, isInterface := false }) := by
  refine yields_onConstant (yields_internMember .method owner name descriptor) fun pool index h => ?_
  show (pool.getMember index).toOption.map Action.invokeVirtual = _
  rw [h]
  rfl

theorem action?_iconst {pool : ConstantPool} {value : Int32} (hlow : -1 ≤ value)
    (hhigh : value ≤ 5) :
    action? pool (.simple (UInt8.ofNat (Opcode.iconst0.toNat + value.toInt).toNat) :
      Instruction Label) = some (.push (.int value)) := by
  have hlow' : -1 ≤ value.toInt := Int32.le_iff_toInt_le.mp hlow
  have hhigh' : value.toInt ≤ 5 := Int32.le_iff_toInt_le.mp hhigh
  obtain ⟨n, hn⟩ : ∃ n, value.toInt = n := ⟨_, rfl⟩
  obtain rfl : Int32.ofInt n = value := by rw [← hn, Int32.ofInt_toInt]
  rw [hn] at hlow' hhigh' ⊢
  show plainAction? _ = _
  clear hn hlow hhigh
  interval_cases n <;> decide

theorem toInt32_toInt8 {value : Int32} (hlow : -128 ≤ value) (hhigh : value < 128) :
    value.toInt8.toInt32 = value := by
  have hlow' : -128 ≤ value.toInt := Int32.le_iff_toInt_le.mp hlow
  have hhigh' : value.toInt < 128 := Int32.lt_iff_toInt_lt.mp hhigh
  apply Int32.toInt_inj.mp
  rw [Int8.toInt_toInt32, Int32.toInt_toInt8, Int.bmod_eq_of_le] <;> omega

theorem toInt32_toInt16 {value : Int32} (hlow : -32768 ≤ value) (hhigh : value < 32768) :
    value.toInt16.toInt32 = value := by
  have hlow' : -32768 ≤ value.toInt := Int32.le_iff_toInt_le.mp hlow
  have hhigh' : value.toInt < 32768 := Int32.lt_iff_toInt_lt.mp hhigh
  apply Int32.toInt_inj.mp
  rw [Int16.toInt_toInt32, Int32.toInt_toInt16, Int.bmod_eq_of_le] <;> omega

/-- The form of the instruction depends on the size of the integer, its action does not. -/
theorem yields_pushInt (value : Int32) :
    (ConstantValue.pushInt value).Yields fun pool i =>
      action? pool i = some (.push (.int value)) := by
  unfold ConstantValue.pushInt
  by_cases hconst : -1 ≤ value ∧ value ≤ 5
  · rw [if_pos hconst]
    exact .pure fun _ => action?_iconst hconst.1 hconst.2
  rw [if_neg hconst]
  by_cases hbyte : -128 ≤ value ∧ value < 128
  · rw [if_pos hbyte]
    refine .pure fun pool => ?_
    show some (Action.push (.int value.toInt8.toInt32)) = _
    rw [toInt32_toInt8 hbyte.1 hbyte.2]
  rw [if_neg hbyte]
  by_cases hshort : -32768 ≤ value ∧ value < 32768
  · rw [if_pos hshort]
    refine .pure fun pool => ?_
    show some (Action.push (.int value.toInt16.toInt32)) = _
    rw [toInt32_toInt16 hshort.1 hshort.2]
  · rw [if_neg hshort]
    refine yields_onConstant (yields_intern (c := .integer value) (by simp)) fun pool index h => ?_
    exact loadAction?_eq_some h rfl rfl

/-! ## The parts of a call -/

theorem yields_pushPrimitiveClass (wrapper : String) :
    (pushPrimitiveClass wrapper).Yields fun pool is =>
      Resolves pool is [.getStatic (typeField wrapper)] := by
  refine ((yields_getStatic wrapper "TYPE" "Ljava/lang/Class;").map ([·])).mono
    fun pool is h => ?_
  obtain ⟨i, hi, rfl⟩ := h
  exact resolves_singleton hi

theorem yields_pushClass (name : String) (majorVersion : UInt16) :
    (pushClass name majorVersion).Yields fun pool is =>
      Resolves pool is (if classLiteralVersion ≤ majorVersion then
        [.push (.ref (.classNamed name))]
        else [.push (.ref (.string (binaryName name))), .invokeStatic forName]) := by
  unfold pushClass
  by_cases hversion : classLiteralVersion ≤ majorVersion
  · rw [if_pos hversion]
    refine ((yields_loadClass name).map ([·])).mono fun pool is h => ?_
    obtain ⟨i, hi, rfl⟩ := h
    rw [if_pos hversion]
    exact resolves_singleton hi
  · rw [if_neg hversion]
    refine ((yields_loadString (binaryName name)).bind fun load =>
      (yields_invokeStatic "java/lang/Class" "forName"
        "(Ljava/lang/String;)Ljava/lang/Class;").map ([load, ·])).mono fun pool is h => ?_
    obtain ⟨load, hload, call, hcall, rfl⟩ := h
    rw [if_neg hversion]
    exact .cons hload (resolves_singleton hcall)

theorem yields_pushReturnClass (majorVersion : UInt16) (ret : ReturnType) :
    (pushReturnClass majorVersion ret).Yields fun pool is =>
      Resolves pool is (returnClassActions majorVersion ret) := by
  cases ret with
  | void => exact yields_pushPrimitiveClass _
  | value type =>
    cases type with
    | object name => exact yields_pushClass name majorVersion
    | array component => exact yields_pushClass _ majorVersion
    | _ => exact yields_pushPrimitiveClass _

theorem yields_box (type : FieldType) :
    (box type).Yields fun pool is => Resolves pool is (boxActions type) := by
  unfold box boxActions
  cases type.wrapper? with
  | none => exact .pure fun _ => .nil
  | some wrapper =>
    refine ((yields_invokeStatic wrapper.className "valueOf" _).map ([·])).mono
      fun pool is h => ?_
    obtain ⟨i, hi, rfl⟩ := h
    exact resolves_singleton hi

theorem action?_load {pool : ConstantPool} (type : FieldType) (slot : UInt16) :
    action? pool (.ofSlot type.loadOpcode slot : Instruction Label) =
      some (.load (kindOf type) slot) := by
  cases type <;> rfl

theorem action?_store {pool : ConstantPool} (type : FieldType) (slot : UInt16) :
    action? pool (.ofSlot type.storeOpcode slot : Instruction Label) =
      some (.store (kindOf type) slot) := by
  cases type <;> rfl

theorem yields_storeArgument (position : Nat) (spill : Spill) :
    (storeArgument position spill).Yields fun pool is =>
      Resolves pool is (storeArgumentActions position spill) := by
  refine ((yields_pushInt (Int32.ofNat position)).bind fun index =>
    (yields_box spill.type).map fun boxing =>
      [.simple Opcode.dup, index, .ofSlot spill.type.loadOpcode spill.slot] ++ boxing ++
        [.simple Opcode.aastore]).mono fun pool is h => ?_
  obtain ⟨index, hindex, boxing, hboxing, rfl⟩ := h
  have hfront : Resolves pool [.simple Opcode.dup, index, .ofSlot spill.type.loadOpcode spill.slot]
      [.dup, .push (.int (Int32.ofNat position)), .load (kindOf spill.type) spill.slot] :=
    .cons rfl (.cons hindex (resolves_singleton (action?_load spill.type spill.slot)))
  exact (hfront.append hboxing).append (resolves_singleton rfl)

/-- The arguments are stored one after the other, so the pieces resolve one after the other. -/
theorem yields_storeArguments (acc : List (List (Instruction Label))) (position : Nat)
    (spilled : List Spill) :
    (storeArguments acc position spilled).Yields fun pool is =>
      ∃ js, is = acc.reverse.flatten ++ js ∧
        Resolves pool js (storeArgumentsActions position spilled) := by
  induction spilled generalizing acc position with
  | nil => exact .pure fun _ => ⟨[], by rw [List.append_nil], .nil⟩
  | cons spill rest ih =>
    refine ((yields_storeArgument position spill).bind fun stored =>
      ih (stored :: acc) (position + 1)).mono fun pool is h => ?_
    obtain ⟨stored, hstored, js, rfl, hjs⟩ := h
    refine ⟨stored ++ js, ?_, hstored.append hjs⟩
    rw [List.reverse_cons, List.flatten_append, List.flatten_singleton, List.append_assoc]

theorem yields_unbox (type : FieldType) (wrapper : Wrapper) :
    (do
      let cast ← onConstant Opcode.checkcast (internClass wrapper.className)
      return [cast, ← onConstant Opcode.invokevirtual (internMethod wrapper.className
        wrapper.unboxing ("()" ++ type.text))] : PoolEdit (List (Instruction Label))).Yields
      fun pool is =>
        Resolves pool is [.cast wrapper.className, .invokeVirtual (unboxMethod type wrapper)] := by
  refine ((yields_cast wrapper.className).bind fun cast =>
    (yields_invokeVirtual wrapper.className wrapper.unboxing ("()" ++ type.text)).map
      ([cast, ·])).mono fun pool is h => ?_
  obtain ⟨cast, hcast, unboxing, hunboxing, rfl⟩ := h
  exact .cons hcast (resolves_singleton hunboxing)

theorem yields_castTo (name : String) :
    (return [← onConstant Opcode.checkcast (internClass name)] :
      PoolEdit (List (Instruction Label))).Yields fun pool is =>
        Resolves pool is [.cast name] := by
  refine ((yields_cast name).map ([·])).mono fun pool is h => ?_
  obtain ⟨i, hi, rfl⟩ := h
  exact resolves_singleton hi

theorem yields_adaptResult (ret : ReturnType) :
    (adaptResult ret).Yields fun pool is => Resolves pool is (adaptActions ret) := by
  cases ret with
  | void => exact .pure fun _ => resolves_singleton rfl
  | value type =>
    cases type with
    | object name => exact yields_castTo name
    | array component => exact yields_castTo _
    | _ => exact yields_unbox _ _

/-! ## The whole call -/

theorem resolves_stores {pool : ConstantPool} (spilled : List Spill) :
    Resolves pool (spilled.reverse.map fun s =>
      (.ofSlot s.type.storeOpcode s.slot : Instruction Label)) (storeActions spilled) := by
  unfold Resolves storeActions
  rw [List.forall₂_map_left_iff, List.forall₂_map_right_iff, List.forall₂_same]
  exact fun spill _ => action?_store spill.type spill.slot

theorem resolves_receiver {pool : ConstantPool} (isStatic : Bool) :
    Resolves pool (if isStatic then [(.simple Opcode.aconstNull : Instruction Label)] else [])
      (receiverActions isStatic) := by
  cases isStatic with
  | true => exact resolves_singleton rfl
  | false => exact .nil

/-- The instructions of a redirected call resolve to its plan. -/
theorem yields_sequence (site : Site) (call : Call) :
    (sequence site call).Yields fun pool replaced =>
      ∃ spilled last, spills site.scratch call.descriptor.params = .ok (spilled, last) ∧
        replaced.used = last - site.scratch ∧
        Resolves pool replaced.instructions (plan site call spilled) := by
  refine (PoolEdit.yields_ofExcept (spills site.scratch call.descriptor.params)).andThen
    fun found => ?_
  obtain ⟨spilled, last⟩ := found
  refine (yields_loadString call.key.text).andThen fun key => ?_
  refine (yields_pushReturnClass site.majorVersion call.descriptor.ret).andThen fun ret => ?_
  refine (yields_pushInt (Int32.ofNat spilled.length)).andThen fun count => ?_
  refine (yields_newArray "java/lang/Object").andThen fun array => ?_
  refine (yields_storeArguments [] 0 spilled).andThen fun arguments => ?_
  refine (yields_invokeStatic site.dispatcher.owner site.dispatcher.name
    Dispatcher.descriptor).andThen fun dispatch => ?_
  refine (yields_adaptResult call.descriptor.ret).andThen fun adapt => ?_
  refine .pure fun pool hadapt hdispatch harguments harray hcount hret hkey hspills => ?_
  refine ⟨spilled, last, hspills, rfl, ?_⟩
  obtain ⟨arguments, rfl, harguments⟩ := harguments
  simp only [List.append_assoc]
  exact (resolves_stores spilled).append <| (resolves_receiver call.isStatic).append <|
    (resolves_singleton hkey).append <| hret.append <|
    Resolves.append (.cons hcount (resolves_singleton harray)) <| harguments.append <|
    (resolves_singleton hdispatch).append hadapt

end ClassPatch.Redirect
