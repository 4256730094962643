import Mathlib
import ClassPatch.Proofs.ClassFile.Reached
import ClassPatch.Proofs.ConstantPool.Count
import ClassPatch.Proofs.Rewrite.ReturnAtOnce

/-!
# Edits that fail

A step that fails keeps what it had changed before. Most edits of a class change it after the last
step that can fail, so that a failure leaves nothing but constants. A method with code is added
before it is given the code, and stays in the class where that fails.
-/

namespace ClassPatch

open Code ConstantPool

namespace ClassFile

/-! ## Classes with more constants -/

/-- A later state of a class in which only the pool differs, by constants at its end. -/
structure Spares (c later : ClassFile) : Prop where
  frame : later = { c with pool := later.pool }
  pool : c.pool.Grows later.pool

namespace Spares

instance : Std.Refl Spares where
  refl c := ⟨rfl, .refl c.pool⟩

instance : IsTrans ClassFile Spares where
  trans _ _ _ h h' := ⟨by rw [h'.frame, h.frame], h.pool.trans h'.pool⟩

theorem keeps_onPool {α : Type} {edit : PoolEdit α} (h : Keeps Extends edit) :
    Keeps Spares (ClassEdit.onPool edit) := by
  intro c
  have hpool := h c.pool
  unfold ClassEdit.onPool
  cases hrun : edit c.pool <;> rw [hrun] at hpool <;> exact ⟨rfl, hpool.grows⟩

theorem keeps_check {α : Type} (f : ClassFile → Except Error α) :
    Keeps Spares (ClassEdit.check f) := by
  intro c
  unfold ClassEdit.check
  cases f c <;> exact Std.Refl.refl c

end Spares

/-! ## Edits with one change at their end -/

theorem failsWithin_setMethodCode (index : Nat) (code : CodeAttribute) :
    FailsWithin Spares (setMethodCode index code) := by
  refine .after (Spares.keeps_check _) fun data =>
    .after (Spares.keeps_onPool (keeps_internText _)) fun nameIndex =>
    .after Keeps.get fun c => ?_
  by_cases hindex : index < c.methods.length
  · rw [if_pos hindex]
    exact .of_neverFails (NeverFails.modify _)
  · rw [if_neg hindex]
    exact .of_keeps (Keeps.throw _)

theorem failsWithin_setSignature (text : String) : FailsWithin Spares (setSignature text) :=
  .after (Spares.keeps_onPool (keeps_internText text)) fun _ =>
    .after (Spares.keeps_onPool (keeps_internText _)) fun _ =>
    .of_neverFails (NeverFails.modify _)

theorem failsWithin_replaceBody (index : Nat) (value : ConstantValue) :
    FailsWithin Spares (replaceBody index value) :=
  .after (Spares.keeps_check _) fun r =>
    .after (Spares.keeps_onPool (keeps_constantCode value r)) fun code =>
    .before (failsWithin_setMethodCode index code) fun _ =>
    (NeverFails.modify _).bind fun _ => NeverFails.modify _

/-! ## Adding methods -/

variable {c later : ClassFile} {access : UInt16} {name descriptor : String} {e : Error}

theorem failsWithin_addMethod_none (access : UInt16) (name descriptor : String) :
    FailsWithin Spares (addMethod access name descriptor none) :=
  .after (Spares.keeps_check _) fun _ =>
    .after (Spares.keeps_onPool (keeps_internText name)) fun _ =>
    .after (Spares.keeps_onPool (keeps_internText descriptor)) fun _ =>
    .after Keeps.get fun _ =>
    .of_neverFails ((NeverFails.modify _).bind fun _ => NeverFails.pure _)

/-- A method with code is added without it, and then given it. -/
theorem addMethod_some (access : UInt16) (name descriptor : String) (code : CodeAttribute) :
    addMethod access name descriptor (some code) = (do
      let index ← addMethod access name descriptor none
      setMethodCode index code
      return index) := by
  simp only [addMethod, bind_assoc, pure_bind]

/-- A later state of a class with one method more, which has no attributes. -/
structure Unfinished (access : UInt16) (name descriptor : String) (c later : ClassFile) : Prop where
  pool : c.pool.Grows later.pool
  frame : ∃ m, later = { c with pool := later.pool, methods := c.methods ++ [m] } ∧
    m.access = access ∧ later.memberNames m = .ok (name, descriptor) ∧ m.attributes = []

theorem unfinished_of_addMethod {index : Nat}
    (h : addMethod access name descriptor none c = .ok index later) :
    index = c.methods.length ∧ c.Unfinished access name descriptor later := by
  obtain ⟨_, c₁, hcheck, hrest⟩ := Success.state_bind.mp h
  obtain ⟨-, rfl⟩ := ClassEdit.check_eq_ok.mp hcheck
  obtain ⟨nameIndex, c₂, hname, hrest⟩ := Success.state_bind.mp hrest
  obtain ⟨named, hintern, rfl⟩ := ClassEdit.onPool_eq_ok.mp hname
  obtain ⟨descriptorIndex, c₃, hdescriptor, hrest⟩ := Success.state_bind.mp hrest
  obtain ⟨pool, hintern', rfl⟩ := ClassEdit.onPool_eq_ok.mp hdescriptor
  obtain ⟨c₄, _, hget, hadd⟩ := Success.state_bind.mp hrest
  cases hget
  cases hadd
  obtain ⟨hgrows, hfirst⟩ := yields_internText name _ _ _ hintern
  obtain ⟨hgrows', hsecond⟩ := yields_internText descriptor _ _ _ hintern'
  refine ⟨rfl, hgrows.trans hgrows', _, rfl, rfl, ?_, rfl⟩
  unfold memberNames
  rw [hfirst pool hgrows', hsecond pool (.refl pool)]
  rfl

/-- More constants do not finish the method. -/
theorem Unfinished.spare {middle : ClassFile} (h : c.Unfinished access name descriptor middle)
    (hlater : middle.Spares later) : c.Unfinished access name descriptor later := by
  obtain ⟨m, hframe, haccess, hnames, hattributes⟩ := h.frame
  refine ⟨h.pool.trans hlater.pool, m, ?_, haccess, ?_, hattributes⟩
  · rw [hlater.frame, hframe]
  · exact memberNames_grows hlater.pool (.refl m) hnames

/-- An edit of the signature, the code or the body of a method that fails leaves the class as it
was, except that there may be more constants. So does a failure to add a method, unless the method
was to have code: it may have been added by then, and is left in the class without its code. -/
theorem spares_of_error (c : ClassFile) :
    (∀ index code e later, setMethodCode index code c = .error e later → c.Spares later) ∧
    (∀ text e later, setSignature text c = .error e later → c.Spares later) ∧
    (∀ index value e later, replaceBody index value c = .error e later → c.Spares later) ∧
    (∀ access name descriptor e later,
      addMethod access name descriptor none c = .error e later → c.Spares later) ∧
    ∀ access name descriptor code e later,
      addMethod access name descriptor (some code) c = .error e later →
        addMethod access name descriptor none c = .error e later ∧ c.Spares later ∨
        ∃ added, addMethod access name descriptor none c = .ok c.methods.length added ∧
          setMethodCode c.methods.length code added = .error e later ∧
          c.Unfinished access name descriptor later := by
  refine ⟨fun index code => failsWithin_setMethodCode index code c,
    fun text => failsWithin_setSignature text c,
    fun index value => failsWithin_replaceBody index value c,
    fun access name descriptor => failsWithin_addMethod_none access name descriptor c,
    fun access name descriptor code e later h => ?_⟩
  rw [addMethod_some] at h
  -- either the method is not added, or it is and its code is refused
  rcases Success.state_bind_eq_error.mp h with hadd | ⟨index, added, hadd, hrest⟩
  · exact .inl ⟨hadd, failsWithin_addMethod_none _ _ _ _ _ _ hadd⟩
  · rcases Success.state_bind_eq_error.mp hrest with hset | ⟨_, _, -, hpure⟩
    · obtain ⟨rfl, hunfinished⟩ := unfinished_of_addMethod hadd
      exact .inr ⟨added, hadd, hset,
        hunfinished.spare (failsWithin_setMethodCode _ _ _ _ _ hset)⟩
    · cases hpure

/-! ## Classes with full pools -/

section Full

variable {text : String} {code : CodeAttribute} {data : List UInt8}

/-- A full pool refuses a new text. -/
theorem onPool_internText_of_full (hsize : c.pool.size = maxSize)
    (hnew : .utf8 text ∉ c.pool.entries.toList) :
    ClassEdit.onPool (internText text) c =
      .error (.rewriteFailed .poolFull) { c with pool := c.pool.push (.utf8 text) } := by
  have hfull : internText text c.pool =
      .error (.rewriteFailed .poolFull) (c.pool.push (.utf8 text)) := by
    rw [internText, intern_of_not_mem hnew hsize.le, size_push, hsize]
    exact if_pos (by simp [Constant.isWide])
  rw [ClassEdit.onPool, hfull]

/-- Any pool gives the index of a text that it has. -/
theorem onPool_internText_of_mem (hsize : c.pool.size ≤ maxSize)
    (hmem : .utf8 text ∈ c.pool.entries.toList) :
    ∃ index, ClassEdit.onPool (internText text) c = .ok index c := by
  obtain ⟨index, hintern⟩ := intern_of_mem hmem hsize
  exact ⟨index, ClassEdit.onPool_eq_ok.mpr ⟨c.pool, hintern, rfl⟩⟩

theorem setMethodCode_of_full (hsize : c.pool.size = maxSize)
    (hnew : .utf8 "Code" ∉ c.pool.entries.toList) (hdata : code.toBytes = .ok data) (index : Nat) :
    setMethodCode index code c =
      .error (.rewriteFailed .poolFull) { c with pool := c.pool.push (.utf8 "Code") } := by
  have hcheck : ClassEdit.check (fun _ => code.toBytes) c = .ok data c :=
    ClassEdit.check_eq_ok.mpr ⟨hdata, rfl⟩
  unfold setMethodCode
  rw [Success.state_bind_ok hcheck]
  exact Success.state_bind_error (onPool_internText_of_full hsize hnew)

theorem addMethod_of_mem {d : MethodDescriptor} (hsize : c.pool.size ≤ maxSize)
    (hname : .utf8 name ∈ c.pool.entries.toList)
    (hdescriptor : .utf8 descriptor ∈ c.pool.entries.toList)
    (hparse : MethodDescriptor.parse descriptor = .ok d) (access : UInt16) :
    ∃ m, addMethod access name descriptor none c =
      .ok c.methods.length { c with methods := c.methods ++ [m] } := by
  have hcheck : ClassEdit.check (fun _ => MethodDescriptor.parse descriptor) c = .ok d c :=
    ClassEdit.check_eq_ok.mpr ⟨hparse, rfl⟩
  obtain ⟨nameIndex, hfirst⟩ := onPool_internText_of_mem hsize hname
  obtain ⟨descriptorIndex, hsecond⟩ := onPool_internText_of_mem hsize hdescriptor
  refine ⟨⟨access, nameIndex, descriptorIndex, []⟩, ?_⟩
  unfold addMethod
  rw [Success.state_bind_ok hcheck, Success.state_bind_ok hfirst, Success.state_bind_ok hsecond]
  rfl

/-- Where the last slot is taken and there is no code yet, a method is added without its code. -/
theorem addMethod_of_full {d : MethodDescriptor} (hsize : c.pool.size = maxSize)
    (hname : .utf8 name ∈ c.pool.entries.toList)
    (hdescriptor : .utf8 descriptor ∈ c.pool.entries.toList)
    (hnew : .utf8 "Code" ∉ c.pool.entries.toList)
    (hparse : MethodDescriptor.parse descriptor = .ok d) (hdata : code.toBytes = .ok data)
    (access : UInt16) :
    ∃ m, addMethod access name descriptor (some code) c = .error (.rewriteFailed .poolFull)
      { c with pool := c.pool.push (.utf8 "Code"), methods := c.methods ++ [m] } := by
  obtain ⟨m, hadd⟩ := addMethod_of_mem hsize.le hname hdescriptor hparse access
  let added : ClassFile := { c with methods := c.methods ++ [m] }
  have hset := setMethodCode_of_full (c := added) hsize hnew hdata c.methods.length
  refine ⟨m, ?_⟩
  rw [addMethod_some, Success.state_bind_ok hadd]
  exact Success.state_bind_error hset

end Full

/-- A class whose last slot is taken, with the name and the descriptor of a method. -/
def crowded (methods : List Member) : ClassFile :=
  { bare with
    pool := padded [.utf8 "A", .classRef 1, .utf8 "f", .utf8 "()V"] 65530
    methods }

variable {methods : List Member}

theorem size_crowded : (crowded methods).pool.size = maxSize := size_padded

theorem mem_crowded {text : String} : .utf8 text ∈ (crowded methods).pool.entries.toList ↔
    text = "A" ∨ text = "f" ∨ text = "()V" := by
  rw [crowded, mem_padded (by simp) (by simp)]
  simp

theorem getElem?_crowded {index : Nat} (h : index < 5) :
    (crowded methods).pool.entries[index]? =
      [.unusable, .utf8 "A", .classRef 1, .utf8 "f", .utf8 "()V"][index]? := by
  rw [← Array.getElem?_toList, crowded, padded, List.toList_toArray, ← List.cons_append]
  exact List.getElem?_append_left h

theorem getText_crowded {index : UInt16} {text : String}
    (h : [.unusable, .utf8 "A", .classRef 1, .utf8 "f", .utf8 "()V"][index.toNat]? =
      some (Constant.utf8 text)) : (crowded methods).pool.getText index = .ok text := by
  have hlt : index.toNat < 5 := (List.getElem?_eq_some_iff.mp h).1
  exact getText_eq_ok.mpr ((getElem?_crowded hlt).trans h)

theorem memberNames_crowded {access : UInt16} {attributes : List Attribute} :
    (crowded methods).memberNames ⟨access, 3, 4, attributes⟩ = .ok ("f", "()V") :=
  memberNames_eq_ok.mpr ⟨getText_crowded rfl, getText_crowded rfl⟩

theorem parse_crowded : ∃ data, parse data = .ok (crowded []) := by
  have hregular : (crowded []).pool.Regular := regular_padded (by simp [Constant.isWide])
  have hname : (crowded []).name = .ok "A" := by
    have hclass : (crowded []).pool.get 2 = .ok (.classRef 1) :=
      get_eq_ok.mpr ⟨getElem?_crowded (by decide), by simp⟩
    have htext : (crowded []).pool.getText 1 = .ok "A" := getText_crowded rfl
    exact Success.except_bind.mpr ⟨_, hclass, htext⟩
  have hpool : (crowded []).pool.Storable := by
    refine ⟨size_crowded.le, fun text htext => ?_⟩
    obtain rfl | rfl | rfl := mem_crowded.mp htext <;> decide +kernel
  have hmembers : Member.Storable [] := ⟨by decide, List.forall_mem_nil _⟩
  have hstorable : (crowded []).Storable :=
    ⟨hpool, by decide, hmembers, hmembers, Attribute.storable_nil⟩
  obtain ⟨data, hdata⟩ := storable_iff.mp hstorable
  exact ⟨data, parse_eq_ok.mpr ⟨by decide, hregular, ⟨_, hname⟩, hdata⟩⟩

theorem parse_void : MethodDescriptor.parse "()V" = .ok ⟨[], .void⟩ := by
  decide +kernel

theorem not_mem_crowded {text : String} (h : text ∉ ["A", "f", "()V"]) :
    .utf8 text ∉ (crowded methods).pool.entries.toList :=
  mt mem_crowded.mp (by simpa using h)

/-- The body of the method of a full class cannot be replaced for want of the name of code. -/
theorem replaceBody_crowded : ∃ later, replaceBody 0 .void (crowded [⟨1, 3, 4, []⟩]) =
    .error (.rewriteFailed .poolFull) later := by
  have hchecked : ClassEdit.check (checkReplacement 0 .void) (crowded [⟨1, 3, 4, []⟩]) =
      .ok ⟨⟨[], .void⟩, 1⟩ (crowded [⟨1, 3, 4, []⟩]) := by
    refine ClassEdit.check_eq_ok.mpr ⟨checkReplacement_eq_ok.mpr ?_, rfl⟩
    exact ⟨_, "f", "()V", rfl, memberNames_crowded, by decide, parse_void, by decide, by decide,
      by decide⟩
  have hbody : ClassEdit.onPool (constantCode .void ⟨⟨[], .void⟩, 1⟩) (crowded [⟨1, 3, 4, []⟩]) =
      .ok (bareReturn 1) (crowded [⟨1, 3, 4, []⟩]) :=
    ClassEdit.onPool_eq_ok.mpr ⟨_, constantCode_void rfl _, rfl⟩
  unfold replaceBody
  rw [Success.state_bind_ok hchecked, Success.state_bind_ok hbody]
  exact ⟨_, Success.state_bind_error (setMethodCode_of_full size_crowded
    (not_mem_crowded (by decide)) (toBytes_bareReturn 1) 0)⟩

/-- A method of a known name can be added to a full class, but not its code. -/
theorem addMethod_crowded : ∃ m, addMethod 1 "f" "()V" (some (bareReturn 1)) (crowded []) =
    .error (.rewriteFailed .poolFull)
      { crowded [] with pool := (crowded []).pool.push (.utf8 "Code"), methods := [m] } := by
  have hf : .utf8 "f" ∈ (crowded []).pool.entries.toList := mem_crowded.mpr (by decide)
  have hvoid : .utf8 "()V" ∈ (crowded []).pool.entries.toList := mem_crowded.mpr (by decide)
  exact addMethod_of_full size_crowded hf hvoid (not_mem_crowded (by decide)) parse_void
    (toBytes_bareReturn 1) 1

/-- In a full class there is no room for the name of code, for a signature, or for the name of
another method. -/
theorem spares_of_error_crowded :
    (∃ later, setMethodCode 0 (bareReturn 1) (crowded [⟨1, 3, 4, []⟩]) =
        .error (.rewriteFailed .poolFull) later ∧ (crowded [⟨1, 3, 4, []⟩]).Spares later) ∧
    (∃ later, setSignature "LA;" (crowded []) = .error (.rewriteFailed .poolFull) later ∧
      (crowded []).Spares later) ∧
    (∃ later, replaceBody 0 .void (crowded [⟨1, 3, 4, []⟩]) =
        .error (.rewriteFailed .poolFull) later ∧ (crowded [⟨1, 3, 4, []⟩]).Spares later) ∧
    (∃ later, addMethod 1 "f" "V" none (crowded []) = .error (.invalidDescriptor "V") later ∧
      (crowded []).Spares later) ∧
    ∃ later, addMethod 1 "f" "()V" (some (bareReturn 1)) (crowded []) =
        .error (.rewriteFailed .poolFull) later ∧
      (addMethod 1 "f" "()V" none (crowded []) = .error (.rewriteFailed .poolFull) later ∧
          (crowded []).Spares later ∨
        ∃ added, addMethod 1 "f" "()V" none (crowded []) = .ok 0 added ∧
          setMethodCode 0 (bareReturn 1) added = .error (.rewriteFailed .poolFull) later ∧
          (crowded []).Unfinished 1 "f" "()V" later) := by
  have hset : setMethodCode 0 (bareReturn 1) (crowded [⟨1, 3, 4, []⟩]) =
      .error (.rewriteFailed .poolFull) _ :=
    setMethodCode_of_full size_crowded (not_mem_crowded (by decide)) (toBytes_bareReturn 1) 0
  have hsignature : setSignature "LA;" (crowded []) = .error (.rewriteFailed .poolFull) _ :=
    Success.state_bind_error (onPool_internText_of_full size_crowded (not_mem_crowded (by decide)))
  obtain ⟨replaced, hreplace⟩ := replaceBody_crowded
  have hinvalid : MethodDescriptor.parse "V" = .error (.invalidDescriptor "V") := by
    decide +kernel
  have hcheck : ClassEdit.check (fun _ => MethodDescriptor.parse "V") (crowded []) =
      .error (.invalidDescriptor "V") (crowded []) := by
    rw [ClassEdit.check, hinvalid]
  have hadd : addMethod 1 "f" "V" none (crowded []) = .error (.invalidDescriptor "V") _ :=
    Success.state_bind_error hcheck
  obtain ⟨m, hunfinished⟩ := addMethod_crowded
  obtain ⟨-, hspareSignature, -, hspareAdd, hleft⟩ := spares_of_error (crowded [])
  obtain ⟨hspareCode, -, hspareBody, -, -⟩ := spares_of_error (crowded [⟨1, 3, 4, []⟩])
  exact ⟨⟨_, hset, hspareCode _ _ _ _ hset⟩, ⟨_, hsignature, hspareSignature _ _ _ hsignature⟩,
    ⟨_, hreplace, hspareBody _ _ _ _ hreplace⟩, ⟨_, hadd, hspareAdd _ _ _ _ _ hadd⟩,
    ⟨_, hunfinished, hleft _ _ _ _ _ _ hunfinished⟩⟩

/-- A method with code is left in the class although it was refused. -/
theorem addMethod_refused : (∃ data, parse data = .ok (crowded [])) ∧
    ∃ later, addMethod 1 "f" "()V" (some (bareReturn 1)) (crowded []) =
      .error (.rewriteFailed .poolFull) later ∧ later.methods ≠ (crowded []).methods := by
  obtain ⟨m, hadd⟩ := addMethod_crowded
  exact ⟨parse_crowded, _, hadd, List.cons_ne_nil _ _⟩

end ClassFile

end ClassPatch
