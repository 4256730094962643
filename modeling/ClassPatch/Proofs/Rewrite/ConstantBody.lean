import Mathlib
import ClassPatch.Proofs.Machine.Steps
import ClassPatch.Proofs.Redirect.Blocks
import ClassPatch.Proofs.Rewrite.ReturnAtOnce

/-!
# Bodies that return a constant

The choices that a new body is made of — whether the value fits the result of the method, the
instruction that pushes it, the slots it takes and the instruction that returns it — agree with each
other: where the body is put in place, the machine runs it to its end and gives the value back,
within the least stack that holds the value. All else of the class is as it was.
-/

namespace ClassPatch

open Code ConstantPool Machine Redirect

/-! ## Values on the stack -/

/-- What a method gives back that returns the constant. -/
def ConstantValue.result? : ConstantValue → Option Value
  | .void => none
  | .null => some (.ref .null)
  | .bool value => some (.int (if value then 1 else 0))
  | .int value => some (.int value)
  | .long value => some (.long value)
  | .float bits => some (.float bits)
  | .double bits => some (.double bits)
  | .string text => some (.ref (.string text))

/-- The kind of the values that a method of the result gives back. -/
def ReturnType.kind? : ReturnType → Option Kind
  | .void => none
  | .value type => some (kindOf type)

namespace ConstantValue

variable {value : ConstantValue} {ret : ReturnType}

theorem slots_eq_depth (value : ConstantValue) : value.slots = depth value.result?.toList := by
  cases value <;> rfl

theorem toUInt32_toUInt16 {value : Int32} (hlow : 0 ≤ value) (hhigh : value < 65536) :
    value.toUInt32.toUInt16.toUInt32 = value.toUInt32 := by
  have hhigh' : value.toInt < 65536 := Int32.lt_iff_toInt_lt.mp hhigh
  have hnat : value.toUInt32.toNat = value.toInt.toNat := Int32.toNat_toUInt32_of_le hlow
  apply UInt32.toNat_inj.mp
  rw [UInt16.toNat_toUInt32, UInt32.toNat_toUInt16]
  omega

/-- The narrow integer types take the integers in their ranges. -/
theorem hasType_int {value : Int32} {type : FieldType} (h : (int value).fitsField type = true) :
    HasType (.int value) type := by
  cases type with
  | int => exact ⟨.boxed (.int value), rfl⟩
  | boolean =>
    simp only [fitsField, decide_eq_true_eq] at h
    rcases h with rfl | rfl
    · exact ⟨.boxed (.boolean false), rfl⟩
    · exact ⟨.boxed (.boolean true), rfl⟩
  | byte =>
    simp only [fitsField, decide_eq_true_eq] at h
    refine ⟨.boxed (.byte value.toInt8), ?_⟩
    simp [box?, Primitive.ofValue?, toInt32_toInt8 h.1 h.2]
  | short =>
    simp only [fitsField, decide_eq_true_eq] at h
    refine ⟨.boxed (.short value.toInt16), ?_⟩
    simp [box?, Primitive.ofValue?, toInt32_toInt16 h.1 h.2]
  | char =>
    simp only [fitsField, decide_eq_true_eq] at h
    refine ⟨.boxed (.char value.toUInt32.toUInt16), ?_⟩
    simp [box?, Primitive.ofValue?, toUInt32_toUInt16 h.1 h.2]
  | _ => cases h

/-- A value that fits is one of the type, and nothing fits a method without result but nothing. -/
theorem hasType_of_fits (h : value.fits ret = true) :
    (value.result? = none ∧ ret = .void) ∨
      ∃ v type, value.result? = some v ∧ ret = .value type ∧ HasType v type := by
  cases ret with
  | void =>
    obtain rfl : value = .void := by simpa [fits] using h
    exact .inl ⟨rfl, rfl⟩
  | value type =>
    right
    have hfield : value.fitsField type = true := h
    cases value with
    | int value => exact ⟨_, type, rfl, rfl, hasType_int hfield⟩
    | bool value =>
      cases value <;> cases type <;> first | exact ⟨_, _, rfl, rfl, _, rfl⟩ | cases hfield
    | _ => cases type <;> first | exact ⟨_, _, rfl, rfl, _, rfl⟩ | cases hfield

/-- The value that fits a result is of the kind that is returned for it. -/
theorem kind_of_fits (h : value.fits ret = true) : value.result?.map (·.kind) = ret.kind? := by
  rcases hasType_of_fits h with ⟨hnone, rfl⟩ | ⟨v, type, hsome, rfl, htype⟩
  · rw [hnone]
    rfl
  · rw [hsome, Option.map_some, htype.kind_eq]
    rfl

theorem yields_loadIndex {opcode : UInt8} {x : PoolEdit UInt16}
    {P : ConstantPool → UInt16 → Prop} {v : Value} (hx : x.Yields P)
    (h : ∀ pool index, P pool index → constantAction? pool opcode index = some (.push v)) :
    (return [Instruction.ofConstant opcode (← x)] : PoolEdit (List (Instruction Label))).Yields
      fun pool is => Resolves pool is [.push v] := by
  refine (hx.map fun index => [Instruction.ofConstant opcode index]).mono fun pool is hi => ?_
  obtain ⟨index, hindex, rfl⟩ := hi
  exact resolves_singleton (h pool index hindex)

/-- A constant of two slots takes an opcode of its own. -/
theorem yields_loadConstant {opcode : UInt8} {c : Constant} {v : Value} (hc : c ≠ .unusable)
    (hopcode : ∀ pool index, constantAction? pool opcode index = loadAction? pool v.slots index)
    (hvalue : ∀ pool, constantValue? pool c = some v) :
    (return [Instruction.ofConstant opcode (← intern c)] : PoolEdit (List (Instruction Label))).Yields
      fun pool is => Resolves pool is [.push v] :=
  yields_loadIndex (yields_intern hc) fun pool index hget =>
    (hopcode pool index).trans (loadAction?_eq_some hget (hvalue pool) rfl)

theorem yields_pushSimple {opcode : UInt8} {v : Value} (h : plainAction? opcode = some (.push v)) :
    (return [Instruction.simple opcode] : PoolEdit (List (Instruction Label))).Yields
      fun pool is => Resolves pool is [.push v] :=
  .pure fun _ => resolves_singleton h

theorem yields_pushLong (value : Int64) : (long value).push.Yields fun pool is =>
    Resolves pool is [.push (.long value)] := by
  rw [push]
  split_ifs with hzero hone
  · exact yields_pushSimple (hzero ▸ rfl)
  · exact yields_pushSimple (hone ▸ rfl)
  · exact yields_loadConstant (by simp) (fun _ _ => rfl) fun _ => rfl

theorem yields_pushFloat (bits : UInt32) : (float bits).push.Yields fun pool is =>
    Resolves pool is [.push (.float bits)] := by
  rw [push]
  split_ifs with hzero hone htwo
  · exact yields_pushSimple (hzero ▸ rfl)
  · exact yields_pushSimple (hone ▸ rfl)
  · exact yields_pushSimple (htwo ▸ rfl)
  · exact yields_loadConstant (by simp) (fun _ _ => rfl) fun _ => rfl

theorem yields_pushDouble (bits : UInt64) : (double bits).push.Yields fun pool is =>
    Resolves pool is [.push (.double bits)] := by
  rw [push]
  split_ifs with hzero hone
  · exact yields_pushSimple (hzero ▸ rfl)
  · exact yields_pushSimple (hone ▸ rfl)
  · exact yields_loadConstant (by simp) (fun _ _ => rfl) fun _ => rfl

/-- The instructions that push a value resolve to one push of it, and to nothing for `void`. -/
theorem yields_push (value : ConstantValue) : value.push.Yields fun pool is =>
    Resolves pool is (value.result?.toList.map .push) := by
  have hint (value : Int32) :
      (return [← pushInt value] : PoolEdit (List (Instruction Label))).Yields
        fun pool is => Resolves pool is [.push (.int value)] := by
    refine ((yields_pushInt value).map ([·])).mono fun pool is h => ?_
    obtain ⟨i, hi, rfl⟩ := h
    exact resolves_singleton hi
  cases value with
  | void => exact .pure fun _ => .nil
  | null => exact yields_pushSimple rfl
  | bool value => exact hint _
  | int value => exact hint value
  | long value => exact yields_pushLong value
  | float bits => exact yields_pushFloat bits
  | double bits => exact yields_pushDouble bits
  | string text =>
    refine yields_loadIndex (yields_internString text) fun pool index h => ?_
    obtain ⟨textIndex, hget, htext⟩ := h
    exact constantAction?_string hget htext

end ConstantValue

theorem action?_returnOpcode {τ : Type} (pool : ConstantPool) (ret : ReturnType) :
    action? pool (.simple ret.returnOpcode : Instruction τ) = some (.leave ret.kind?) := by
  cases ret with
  | void => rfl
  | value type => cases type <;> rfl

/-! ## Other attributes -/

theorem eraseP_setCode {isCode : UInt16 → Bool} {added : Attribute} {attributes : List Attribute}
    (hadded : isCode added.nameIndex = true) :
    (setCode isCode added attributes).eraseP (fun a => isCode a.nameIndex) =
      attributes.eraseP fun a => isCode a.nameIndex := by
  induction attributes with
  | nil => simp [setCode, hadded]
  | cons a rest ih =>
    by_cases ha : isCode a.nameIndex
    · simp [setCode, ha]
    · simp [setCode, ha, ih]

namespace Member

/-- The method with another body. Its code apart, which is the first attribute of the name, it has
the attributes that it had, but none for the names of parameters. -/
structure Bodied (pool : ConstantPool) (m m' : Member) : Prop where
  access : m'.access = m.access &&& ~~~Access.nativeFlag
  nameIndex : m'.nameIndex = m.nameIndex
  descriptorIndex : m'.descriptorIndex = m.descriptorIndex
  noParameters : ∀ a ∈ m'.attributes, pool.getText a.nameIndex ≠ .ok "MethodParameters"
  others : m'.attributes.eraseP (fun a => pool.isText "Code" a.nameIndex) =
    (m.attributes.filter fun a => !pool.isText "MethodParameters" a.nameIndex).eraseP
      fun a => pool.isText "Code" a.nameIndex

theorem bodied_withBody {pool : ConstantPool} {nameIndex : UInt16} (data : List UInt8) (m : Member)
    (hname : pool.getText nameIndex = .ok "Code") :
    m.Bodied pool (m.withBody pool nameIndex data) := by
  refine ⟨rfl, rfl, rfl, fun a ha hparameters => ?_, ?_⟩
  · have hkept := (List.mem_filter.mp ha).2
    rw [isText_iff.mpr hparameters] at hkept
    cases hkept
  · rw [attributes_withBody hname]
    exact eraseP_setCode (isText_iff.mpr hname)

end Member

/-! ## Code that returns a value -/

/-- A push of a value and the return of its kind give the value back, if the stack can hold it. -/
theorem performAll_return {ctx : Context} {s : State} (result? : Option Value) (hs : s.stack = []) :
    performAll ctx (result?.toList.map .push ++ [.leave (result?.map (·.kind))]) s =
      .error (if depth result?.toList ≤ ctx.maxStack then .returned result? else .stuck) s := by
  cases result? with
  | none => exact congrArg (EStateM.Result.error · s) (if_pos (Nat.zero_le _)).symm
  | some v =>
    have hdepth : depth s.stack + v.slots = depth (some v).toList := by
      rw [hs]
      exact Nat.add_comm ..
    by_cases hroom : depth (some v).toList ≤ ctx.maxStack
    · have hleave : perform ctx (.leave (some v.kind)) { s with stack := [v] } =
          .error (.returned (some v)) s := by
        show (do
          let value ← Machine.pop
          if value.kind = v.kind then throw (.returned (some value)) else throw .stuck :
            Execution Unit) _ = _
        rw [Success.state_bind_ok (pop_cons rfl), if_pos rfl, ← hs]
        rfl
      have hpush := perform_push (hdepth ▸ hroom)
      rw [hs] at hpush
      rw [if_pos hroom]
      exact (performAll_cons hpush).trans (performAll_cons_error hleave)
    · have hpush : perform ctx (.push v) s = .error .stuck s := by
        show Machine.push ctx v s = _
        rw [Machine.push, if_neg (hdepth ▸ hroom)]
      rw [if_neg hroom]
      exact performAll_cons_error hpush

/-- Code without branches is taken apart into the instructions that it was made of, up to wider
forms of them. -/
theorem exists_read_of_encode {is : List (Instruction Label)} {actions : List Action}
    {pool : ConstantPool} {assembled : Assembled} (hresolves : Resolves pool is actions)
    (h : encode (is.map .instruction) = .ok assembled) :
    ∃ read, disassemble assembled.code = .ok read ∧
      List.Forall₂ Stands is (read.map (·.instruction)) := by
  have hplain : ∀ i ∈ is, i.targets = [] ∧ Opcode.inverse? i.opcode = none := by
    intro i hi
    obtain ⟨a, -, ha⟩ := exists_of_mem_left hresolves hi
    exact no_branch_of_action? ha
  have hclosed : Closed (is.map .instruction) := by
    refine ⟨fun i hi target htarget => ?_, fun i hi => ?_⟩
    · obtain ⟨j, hj, hsame⟩ := List.mem_map.mp hi
      cases hsame
      rw [(hplain i hj).1] at htarget
      cases htarget
    · obtain ⟨node, hnode, hi⟩ := List.mem_filterMap.mp (List.mem_of_getLast? hi)
      obtain ⟨j, hj, rfl⟩ := List.mem_map.mp hnode
      cases hi
      exact (hplain i hj).2
  obtain ⟨read, hread, hlaid⟩ := disassemble_encodeWith h hclosed
  exact ⟨read, hread, stands_of_laidOut (fun i hi => (hplain i hi).1) hlaid⟩

/-- An instruction without operand is read as itself. -/
theorem stands_simple {opcode : UInt8} {read : Instruction Nat} (h : Stands (.simple opcode) read) :
    read = .simple opcode := by
  cases h with
  | same h => exact (Option.some.inj h).symm

/-- What is read for instructions with one without operand at their end. -/
theorem stands_concat {is : List (Instruction Label)} {opcode : UInt8}
    {read : List (Instruction Nat)} (h : List.Forall₂ Stands (is ++ [.simple opcode]) read) :
    ∃ front, read = front ++ [.simple opcode] ∧ List.Forall₂ Stands is front := by
  have hfront := (List.forall₂_take_append _ _ _ h.flip).flip
  have hlast := (List.forall₂_drop_append _ _ _ h.flip).flip
  obtain ⟨last, rest, hstands, hrest, hdrop⟩ := List.forall₂_cons_left_iff.mp hlast
  obtain rfl := stands_simple hstands
  obtain rfl := List.forall₂_nil_left_iff.mp hrest
  exact ⟨read.take is.length, by rw [← hdrop, List.take_append_drop], hfront⟩

/-- Code of one push of a value, or of none for `void`, and the return for the value. The machine
gives the value back, with the stack that the code asks for and with no less. -/
structure Code.CodeAttribute.Returns (pool : ConstantPool) (value : ConstantValue) (ret : ReturnType)
    (code : CodeAttribute) : Prop where
  body : ∃ read push, disassemble code.code = .ok read ∧
    read.map (·.instruction) = push ++ [.simple ret.returnOpcode] ∧
    Resolves pool push (value.result?.toList.map .push) ∧
    ∀ ctx s, s.stack = [] → run ctx pool (read.map (·.instruction)) s =
      .error (if code.maxStack.toNat ≤ ctx.maxStack then .returned value.result? else .stuck) s
  leaves : action? pool (.simple ret.returnOpcode : Instruction Nat) =
    some (.leave (value.result?.map (·.kind)))
  typed : ∀ v, value.result? = some v → ∃ type, ret = .value type ∧ HasType v type
  maxStack : code.maxStack.toNat = depth value.result?.toList
  exceptions : code.exceptions = []
  attributes : code.attributes = []

/-- There is always an instruction to return with. -/
theorem Code.CodeAttribute.Returns.code_ne_nil {pool : ConstantPool} {value : ConstantValue}
    {ret : ReturnType} {code : CodeAttribute} (h : code.Returns pool value ret) : code.code ≠ [] := by
  obtain ⟨read, push, hread, hsplit, -⟩ := h.body
  intro hempty
  have hnil : disassemble [] = .ok [] := rfl
  rw [hempty, hnil] at hread
  cases hread
  simp at hsplit

namespace ClassFile

variable {c c' : ClassFile} {index : Nat} {value : ConstantValue} {r : Replacement}
  {pool grown : ConstantPool} {code : CodeAttribute}

theorem constantCode_eq_ok : constantCode value r pool = .ok code grown ↔
    ∃ push assembled, value.push pool = .ok push grown ∧
      encode ((push ++ [Instruction.simple r.descriptor.ret.returnOpcode]).map .instruction) = .ok assembled ∧
      code = { maxStack := UInt16.ofNat value.slots, maxLocals := r.argumentSlots,
               code := assembled.code, exceptions := [], attributes := [] } := by
  unfold constantCode
  simp only [Success.state_bind, PoolEdit.ofExcept_eq_ok, Success.state_pure]
  constructor
  · rintro ⟨push, _, hpush, assembled, _, ⟨hencode, rfl⟩, rfl, rfl⟩
    exact ⟨push, assembled, hpush, hencode, rfl⟩
  · rintro ⟨push, assembled, hpush, hencode, rfl⟩
    exact ⟨push, _, hpush, assembled, _, ⟨hencode, rfl⟩, rfl, rfl⟩

theorem slots_lt (value : ConstantValue) : value.slots < UInt16.size := by
  cases value <;> simp [ConstantValue.slots, UInt16.size]

/-- The code that is made for a value that fits returns it. -/
theorem returns_of_constantCode (hfits : value.fits r.descriptor.ret = true)
    (h : constantCode value r pool = .ok code grown) {later : ConstantPool}
    (hlater : grown.Grows later) : code.Returns later value r.descriptor.ret := by
  obtain ⟨push, assembled, hpush, hencode, rfl⟩ := constantCode_eq_ok.mp h
  have hkind := ConstantValue.kind_of_fits hfits
  have hresolves := (value.yields_push pool push grown hpush).2 later hlater
  have hleave (τ : Type) : action? later (.simple r.descriptor.ret.returnOpcode : Instruction τ) =
      some (.leave (value.result?.map (·.kind))) := by
    rw [action?_returnOpcode, hkind]
  obtain ⟨read, hread, hstands⟩ :=
    exists_read_of_encode (hresolves.append (resolves_singleton (hleave Label))) hencode
  obtain ⟨front, hsplit, hfront⟩ := stands_concat hstands
  have hpushes := resolves_of_stands hresolves hfront
  have hslots : (UInt16.ofNat value.slots).toNat = depth value.result?.toList := by
    rw [UInt16.toNat_ofNat_of_lt' (slots_lt value), value.slots_eq_depth]
  refine ⟨⟨read, front, hread, hsplit, hpushes, fun ctx s hs => ?_⟩, hleave Nat, fun v hv => ?_,
    hslots, rfl, rfl⟩
  · have hrun := Success.option_mapM.mpr (hpushes.append (resolves_singleton (hleave Nat)))
    rw [hsplit, run_eq_performAll hrun, performAll_return _ hs, hslots]
  · rcases ConstantValue.hasType_of_fits hfits with ⟨hnone, -⟩ | ⟨w, type, hw, hret, htype⟩
    · rw [hnone] at hv
      cases hv
    · obtain rfl := Option.some.inj (hv.symm.trans hw)
      exact ⟨type, hret, htype⟩

/-! ## Methods that are refused -/

/-- Why a method can not be given a body that returns the value. -/
inductive Refused (c : ClassFile) (index : Nat) (value : ConstantValue) : Error → Prop
  | missing : c.methods[index]? = none →
      Refused c index value (.rewriteFailed (.methodIndex index))
  | unnamed {m : Member} {e : Error} : c.methods[index]? = some m → c.memberNames m = .error e →
      Refused c index value e
  | abstract {m : Member} {name text : String} : c.methods[index]? = some m →
      c.memberNames m = .ok (name, text) → m.has Access.abstractFlag = true →
      Refused c index value (.rewriteFailed (.abstractMethod name))
  | descriptor {m : Member} {name text : String} : c.methods[index]? = some m →
      c.memberNames m = .ok (name, text) → m.has Access.abstractFlag = false →
      MethodDescriptor.parse? text = none → Refused c index value (.invalidDescriptor text)
  | mismatch {m : Member} {name text : String} {d : MethodDescriptor} :
      c.methods[index]? = some m → c.memberNames m = .ok (name, text) →
      m.has Access.abstractFlag = false → MethodDescriptor.parse? text = some d →
      value.fits d.ret = false → Refused c index value
        (.rewriteFailed (.constantMismatch value.describe d.ret.text name text))
  | slots {m : Member} {name text : String} {d : MethodDescriptor} :
      c.methods[index]? = some m → c.memberNames m = .ok (name, text) →
      m.has Access.abstractFlag = false → MethodDescriptor.parse? text = some d →
      value.fits d.ret = true → UInt16.size ≤ d.argumentSlots m.isStatic →
      Refused c index value (.rewriteFailed (.tooManyArgumentSlots text))

/-- The check of a concrete method whose names resolve. -/
theorem checkReplacement_of_concrete {m : Member} {name text : String}
    (hm : c.methods[index]? = some m) (hnames : c.memberNames m = .ok (name, text))
    (hconcrete : m.has Access.abstractFlag = false) : checkReplacement index value c = (do
      let d ← MethodDescriptor.parse text
      if !value.fits d.ret then
        refuse (.constantMismatch value.describe d.ret.text name text)
      else if UInt16.size ≤ d.argumentSlots m.isStatic then refuse (.tooManyArgumentSlots text)
      else return ⟨d, UInt16.ofNat (d.argumentSlots m.isStatic)⟩) := by
  rw [checkReplacement, hm]
  show (c.memberNames m >>= _) = _
  rw [hnames]
  exact if_neg (by simp [hconcrete])

theorem parse_of_parse? {text : String} {d : MethodDescriptor}
    (h : MethodDescriptor.parse? text = some d) : MethodDescriptor.parse text = .ok d := by
  rw [MethodDescriptor.parse, h]
  rfl

theorem refused_of_checkReplacement {e : Error} (h : checkReplacement index value c = .error e) :
    c.Refused index value e := by
  cases hm : c.methods[index]? with
  | none =>
    rw [checkReplacement, hm] at h
    cases h
    exact .missing hm
  | some m =>
    cases hnames : c.memberNames m with
    | error e' =>
      rw [checkReplacement, hm] at h
      obtain hnames' | ⟨names, hnames', -⟩ := Success.except_bind_eq_error.mp h
      · exact .unnamed hm hnames'
      · rw [hnames] at hnames'
        cases hnames'
    | ok names =>
      obtain ⟨name, text⟩ := names
      by_cases habstract : m.has Access.abstractFlag = true
      · rw [checkReplacement, hm] at h
        change (c.memberNames m >>= _) = _ at h
        rw [hnames] at h
        change (if _ then _ else _) = _ at h
        rw [if_pos habstract] at h
        cases h
        exact .abstract hm hnames habstract
      have hconcrete := Bool.eq_false_iff.mpr habstract
      rw [checkReplacement_of_concrete hm hnames hconcrete] at h
      cases hparse : MethodDescriptor.parse? text with
      | none =>
        rw [MethodDescriptor.parse, hparse] at h
        cases h
        exact .descriptor hm hnames hconcrete hparse
      | some d =>
        rw [parse_of_parse? hparse] at h
        change (if _ then _ else _) = _ at h
        split_ifs at h with hfits hslots
        · cases h
          exact .mismatch hm hnames hconcrete hparse (by simpa using hfits)
        · cases h
          exact .slots hm hnames hconcrete hparse (by simpa using hfits) hslots
        · cases h

/-- The check fails for these reasons and no others. -/
theorem checkReplacement_eq_error {e : Error} :
    checkReplacement index value c = .error e ↔ c.Refused index value e := by
  refine ⟨refused_of_checkReplacement, fun h => ?_⟩
  cases h with
  | missing hm =>
    rw [checkReplacement, hm]
    rfl
  | unnamed hm hnames =>
    rw [checkReplacement, hm]
    exact Success.except_bind_eq_error.mpr (.inl hnames)
  | abstract hm hnames habstract =>
    rw [checkReplacement, hm]
    exact Success.except_bind_eq_error.mpr (.inr ⟨_, hnames, if_pos habstract⟩)
  | descriptor hm hnames hconcrete hparse =>
    rw [checkReplacement_of_concrete hm hnames hconcrete, MethodDescriptor.parse, hparse]
    rfl
  | mismatch hm hnames hconcrete hparse hfits =>
    rw [checkReplacement_of_concrete hm hnames hconcrete, parse_of_parse? hparse]
    exact if_pos (by simp [hfits])
  | slots hm hnames hconcrete hparse hfits hslots =>
    rw [checkReplacement_of_concrete hm hnames hconcrete, parse_of_parse? hparse]
    exact (if_neg (by simp [hfits])).trans (if_pos hslots)

/-- A method that is refused is refused before anything has changed. -/
theorem replaceBody_of_refused {e : Error} (h : c.Refused index value e) :
    replaceBody index value c = .error e c := by
  have hcheck : ClassEdit.check (checkReplacement index value) c = .error e c := by
    rw [ClassEdit.check, checkReplacement_eq_error.mpr h]
  exact Success.state_bind_error hcheck

/-! ## Replacing one body -/

theorem argumentSlots_eq (d : MethodDescriptor) (isStatic : Bool) : d.argumentSlots isStatic =
    (d.params.map FieldType.slots).sum + if isStatic then 0 else 1 := by
  unfold MethodDescriptor.argumentSlots
  induction d.params with
  | nil => simp
  | cons type params ih => simp [ih, Nat.add_assoc]

/-- A method that is given a constant to return returns it: the code is one push of the value, none
for `void`, and the return for the type in the descriptor, and has locals for the arguments only. Of
all else in the class, only that stays not as it was which belongs to the old body, and constants
are added. A method that can not return the constant is refused, and then nothing has changed. -/
theorem replaceBody_outcome (c : ClassFile) (index : Nat) (value : ConstantValue) :
    (∀ c', replaceBody index value c = .ok () c' → ∃ m m' text descriptor code,
      c.methods[index]? = some m ∧ c.pool.getText m.descriptorIndex = .ok text ∧
      MethodDescriptor.parse text = .ok descriptor ∧
      c'.methodCode index = .ok (some code) ∧
      code.Returns c'.pool value descriptor.ret ∧
      code.maxLocals.toNat =
        (descriptor.params.map FieldType.slots).sum + (if m.isStatic then 0 else 1) ∧
      m.Bodied c'.pool m' ∧ c.pool.KeepsMeaning c'.pool ∧
      c' = { c with pool := c'.pool, methods := c.methods.set index m' }) ∧
    ∀ e, c.Refused index value e → replaceBody index value c = .error e c := by
  refine ⟨fun c' h => ?_, fun e => replaceBody_of_refused⟩
  obtain ⟨r, code, data, nameIndex, grown, pool, hcheck, hcode, hdata, hintern, hindex, rfl⟩ :=
    replaceBody_eq_ok.mp h
  obtain ⟨m, name, text, hm, hnames, -, hparse, hfits, hslots, hcount⟩ :=
    checkReplacement_eq_ok.mp hcheck
  obtain ⟨hgrows, hyields⟩ := yields_internText "Code" _ _ _ hintern
  have hname := hyields pool (.refl pool)
  have hreturns := returns_of_constantCode hfits hcode hgrows
  have hmeaning := ((Confined.keeps_replaceBody index value).of_ok h).pool.grows.keepsMeaning
  have hset : NewBody.put pool c.methods ⟨index, nameIndex, data⟩ =
      c.methods.set index (m.withBody pool nameIndex data) := by
    rw [NewBody.put, List.modify_eq_set_getElem?, hm]
    rfl
  rw [hset]
  refine ⟨m, m.withBody pool nameIndex data, text, r.descriptor, code, hm,
    (memberNames_eq_ok.mp hnames).2, hparse, ?_, hreturns, ?_, m.bodied_withBody data hname,
    hmeaning, rfl⟩
  · have hlater : (c.methods.set index (m.withBody pool nameIndex data))[index]? =
        some (m.withBody pool nameIndex data) := List.getElem?_set_self hindex
    exact methodCode_withBody (c := { c with
      pool, methods := c.methods.set index (m.withBody pool nameIndex data) }) hname hlater hdata
      hreturns.code_ne_nil
  · obtain ⟨_, _, _, _, rfl⟩ := constantCode_eq_ok.mp hcode
    show r.argumentSlots.toNat = _
    rw [hcount, UInt16.toNat_ofNat_of_lt' hslots, argumentSlots_eq]

/-- A class with a native method `f()J` that has names of parameters. -/
def nativeLong : ClassFile where
  minorVersion := 0
  majorVersion := 52
  pool := ⟨#[.unusable, .utf8 "f", .utf8 "()J", .utf8 "MethodParameters"]⟩
  access := 0
  thisClass := 0
  superClass := 0
  interfaces := []
  fields := []
  methods := [⟨Access.nativeFlag, 1, 2, [⟨3, [0]⟩]⟩]
  attributes := []

theorem replaceBody_outcome_nativeLong : ∃ c', replaceBody 0 (.long 5) nativeLong = .ok () c' ∧
    ∃ code, c'.methodCode 0 = .ok (some code) ∧ code.Returns c'.pool (.long 5) (.value .long) := by
  have hsome : EStateM.run' (replaceBody 0 (.long 5)) nativeLong = some () := by decide +kernel
  cases h : replaceBody 0 (.long 5) nativeLong with
  | error e c' =>
    rw [EStateM.run', EStateM.run, h] at hsome
    cases hsome
  | ok u c' =>
    obtain ⟨m, m', text, d, code, hm, htext, hparse, hcode, hreturns, -⟩ :=
      (replaceBody_outcome nativeLong 0 (.long 5)).1 c' h
    have hret : d.ret = .value .long := by
      cases hm
      cases htext
      cases hparse
      rfl
    exact ⟨c', rfl, code, hcode, hret ▸ hreturns⟩

end ClassFile

end ClassPatch
