import Mathlib
import ClassPatch.Proofs.ConstantPool.Regular
import ClassPatch.Proofs.ConstantPool.Steady

/-!
# Requests to constant pools

A pool lives through a sequence of requests for the indices of constants. Every request goes
through the pool one constant after the other, so what it leaves is what single constants leave:
the entries from before in their places, and after them constants that were not there yet. An
index that is given stands for what was asked for, in this pool and in all later ones.
-/

namespace ClassPatch

namespace ConstantPool

/-! ## Slots that cannot be used -/

/-- The place is the slot after an 8-byte constant. -/
def IsShadow (pool : ConstantPool) (place : Nat) : Prop :=
  ∃ before c, place = before + 1 ∧ pool.entries[before]? = some c ∧ c.isWide = true

/-- Among the slots of constants, those after 8-byte constants are the unusable ones. -/
theorem getElem?_slots_eq_unusable {constants : List Constant}
    (husable : ∀ c ∈ constants, c ≠ .unusable) {place : Nat} :
    (constants.flatMap Constant.slots)[place]? = some .unusable ↔
      ∃ before c, place = before + 1 ∧
        (constants.flatMap Constant.slots)[before]? = some c ∧ c.isWide = true := by
  induction constants generalizing place with
  | nil => simp
  | cons first rest ih =>
    obtain ⟨hfirst, hrest⟩ := List.forall_mem_cons.mp husable
    have ih := @ih hrest
    rw [List.flatMap_cons, Constant.slots]
    by_cases hwide : first.isWide
    · rw [if_pos hwide]
      obtain _ | _ | place := place
      · simp [hfirst]
      · simp [hwide]
      · constructor
        · intro h
          obtain ⟨before, c, rfl, hc⟩ := ih.mp (by simpa using h)
          exact ⟨before + 2, c, rfl, by simpa using hc⟩
        · intro h
          obtain ⟨before, c, hplace, hc, hcwide⟩ := h
          obtain _ | _ | before := before
          · omega
          · obtain rfl : Constant.unusable = c := by simpa using hc
            cases hcwide
          · simpa using ih.mpr ⟨before, c, by omega, by simpa using hc, hcwide⟩
    · rw [if_neg hwide]
      cases place with
      | zero => simp [hfirst]
      | succ place =>
        constructor
        · intro h
          obtain ⟨before, c, rfl, hc⟩ := ih.mp (by simpa using h)
          exact ⟨before + 1, c, rfl, by simpa using hc⟩
        · intro h
          obtain ⟨before, c, hplace, hc, hcwide⟩ := h
          cases before with
          | zero =>
            obtain rfl : first = c := by simpa using hc
            exact absurd hcwide hwide
          | succ before => simpa using ih.mpr ⟨before, c, by omega, by simpa using hc, hcwide⟩

/-- In a regular pool, slot 0 and the slots after 8-byte constants are the unusable ones. -/
theorem Regular.getElem?_eq_unusable {pool : ConstantPool} (h : pool.Regular) {place : Nat} :
    pool.entries[place]? = some .unusable ↔ place = 0 ∨ pool.IsShadow place := by
  obtain ⟨constants, husable, hentries⟩ := h
  simp only [IsShadow, ← Array.getElem?_toList, hentries]
  cases place with
  | zero => simp
  | succ place =>
    rw [List.getElem?_cons_succ, getElem?_slots_eq_unusable husable]
    constructor
    · intro h
      obtain ⟨before, c, rfl, hc⟩ := h
      exact .inr ⟨before + 1, c, rfl, hc⟩
    · intro h
      obtain hzero | ⟨before, c, hplace, hc, hwide⟩ := h
      · cases hzero
      cases before with
      | zero =>
        obtain rfl : Constant.unusable = c := by simpa using hc
        cases hwide
      | succ before => exact ⟨before, c, by omega, hc, hwide⟩

/-! ## Pools without new duplicates -/

/-- A later pool, where the entries are in their places and no constant after them equals an
earlier one. -/
structure AddsNew (pool later : ConstantPool) : Prop where
  kept : ∀ place < pool.size, later.entries[place]? = pool.entries[place]?
  size_le : pool.size ≤ later.size
  new : ∀ place c, pool.size ≤ place → later.entries[place]? = some c → c ≠ .unusable →
    ∀ earlier < place, later.entries[earlier]? ≠ some c

instance : Std.Refl AddsNew where
  refl pool := by
    refine ⟨fun _ _ => rfl, le_rfl, fun place c hplace hc => ?_⟩
    rw [Array.getElem?_eq_none hplace] at hc
    cases hc

instance : IsTrans ConstantPool AddsNew where
  trans pool middle later h h' := by
    refine ⟨fun place hplace => ?_, h.size_le.trans h'.size_le,
      fun place c hplace hc husable earlier hearlier => ?_⟩
    · rw [h'.kept place (hplace.trans_le h.size_le), h.kept place hplace]
    -- a constant that was there in the middle is as new in the later pool as it was then
    · by_cases hmiddle : middle.size ≤ place
      · exact h'.new place c hmiddle hc husable earlier hearlier
      · rw [h'.kept place (by omega)] at hc
        rw [h'.kept earlier (by omega)]
        exact h.new place c hplace hc husable earlier hearlier

/-- Of the slots that a constant fills, only the first one holds a constant. -/
theorem eq_of_getElem?_slots {c d : Constant} {offset : Nat} (h : c.slots[offset]? = some d)
    (husable : d ≠ .unusable) : offset = 0 ∧ d = c := by
  unfold Constant.slots at h
  by_cases hwide : c.isWide
  · rw [if_pos hwide] at h
    rcases offset with _ | _ | offset
    · exact ⟨rfl, by simpa [eq_comm] using h⟩
    · exact absurd (by simpa [eq_comm] using h) husable
    · simp at h
  · rw [if_neg hwide] at h
    rcases offset with _ | offset
    · exact ⟨rfl, by simpa [eq_comm] using h⟩
    · simp at h

theorem addsNew_push {pool : ConstantPool} {c : Constant} (h : c ∉ pool.entries.toList) :
    pool.AddsNew (pool.push c) := by
  have hentries : (pool.push c).entries.toList = pool.entries.toList ++ c.slots :=
    Array.toList_appendList
  have hkept : ∀ place < pool.size, (pool.push c).entries[place]? = pool.entries[place]? := by
    intro place hplace
    rw [← Array.getElem?_toList, ← Array.getElem?_toList, hentries,
      List.getElem?_append_left (by rwa [Array.length_toList])]
  refine ⟨hkept, ?_, fun place added hplace hadded husable earlier hearlier hsame => ?_⟩
  · simp [size, ← Array.length_toList, hentries]
  · rw [← Array.getElem?_toList, hentries,
      List.getElem?_append_right (by rwa [Array.length_toList]), Array.length_toList] at hadded
    obtain ⟨hfirst, rfl⟩ := eq_of_getElem?_slots hadded husable
    have hearlier : earlier < pool.size := hearlier.trans_le (Nat.le_of_sub_eq_zero hfirst)
    rw [hkept earlier hearlier, ← Array.getElem?_toList] at hsame
    exact h (List.mem_of_getElem? hsame)

theorem keeps_intern_addsNew (c : Constant) : Keeps AddsNew (intern c) := by
  intro pool
  have hcases := interned_intern c pool
  generalize intern c pool = result at hcases
  cases hcases with
  | found _ => exact Std.Refl.refl pool
  | overfull _ => exact Std.Refl.refl pool
  | overflow hnew _ _ => exact addsNew_push hnew
  | added hnew _ _ => exact addsNew_push hnew

/-! ## Requests -/

/-- The constants that can be asked for, with floating-point values given by their bits. -/
inductive Request where
  | text (content : String)
  | className (name : String)
  | string (content : String)
  | integer (value : Int32)
  | float (bits : UInt32)
  | long (value : Int64)
  | double (bits : UInt64)
  | method (owner name descriptor : String)
  | field (owner name descriptor : String)

namespace Request

/-- Give the index of what is asked for. -/
def run : Request → PoolEdit UInt16
  | text content => internText content
  | className name => internClass name
  | string content => internString content
  | integer value => intern (.integer value)
  | float bits => intern (.float bits)
  | long value => intern (.long value)
  | double bits => intern (.double bits)
  | method owner name descriptor => internMethod owner name descriptor
  | field owner name descriptor => internField owner name descriptor

/-- The index stands for what is asked for. -/
def Answered (pool : ConstantPool) (index : UInt16) : Request → Prop
  | text content => pool.getText index = .ok content
  | className name => pool.getClassName index = .ok name
  | string content => ∃ textIndex, pool.get index = .ok (.string textIndex) ∧
      pool.getText textIndex = .ok content
  | integer value => pool.get index = .ok (.integer value)
  | float bits => pool.get index = .ok (.float bits)
  | long value => pool.get index = .ok (.long value)
  | double bits => pool.get index = .ok (.double bits)
  | method owner name descriptor =>
    (∃ ownerIndex nameType, pool.get index = .ok (.member .method ownerIndex nameType)) ∧
      pool.getMember index = .ok ⟨owner, name, descriptor, false⟩
  | field owner name descriptor =>
    (∃ ownerIndex nameType, pool.get index = .ok (.member .field ownerIndex nameType)) ∧
      pool.getMember index = .ok ⟨owner, name, descriptor, false⟩

/-- A request asks for one constant after the other. -/
theorem run_of_intern {P : PoolEdit UInt16 → Prop} (hintern : ∀ c, c ≠ .unusable → P (intern c))
    (hbind : ∀ {x : PoolEdit UInt16} {f : UInt16 → PoolEdit UInt16}, P x → (∀ index, P (f index)) →
      P (x >>= f)) (r : Request) : P r.run := by
  have htext (text : String) : P (internText text) := hintern _ (by simp)
  have hclass (name : String) : P (internClass name) :=
    hbind (htext name) fun _ => hintern _ (by simp)
  have hmember (kind : MemberKind) (owner name descriptor : String) :
      P (internMember kind owner name descriptor) :=
    hbind (hclass owner) fun _ => hbind (hbind (htext name) fun _ =>
      hbind (htext descriptor) fun _ => hintern _ (by simp)) fun _ => hintern _ (by simp)
  cases r with
  | text content => exact htext content
  | className name => exact hclass name
  | string content => exact hbind (htext content) fun _ => hintern _ (by simp)
  | method owner name descriptor => exact hmember .method owner name descriptor
  | field owner name descriptor => exact hmember .field owner name descriptor
  | _ => exact hintern _ (by simp)

/-- What single constants keep is kept by every request. -/
theorem keeps_run {R : ConstantPool → ConstantPool → Prop} [Std.Refl R] [IsTrans ConstantPool R]
    (h : ∀ c, c ≠ .unusable → Keeps R (intern c)) (r : Request) : Keeps R r.run :=
  run_of_intern h Keeps.bind r

/-- Made again, a request gives the same index and adds nothing. -/
theorem steady_run (r : Request) : PoolEdit.Steady r.run :=
  run_of_intern (fun c _ => .intern c) PoolEdit.Steady.bind r

theorem yields_memberConstant (kind : MemberKind) (owner name descriptor : String) :
    (internMember kind owner name descriptor).Yields fun pool index =>
      ∃ ownerIndex nameType, pool.get index = .ok (.member kind ownerIndex nameType) := by
  refine ((yields_internClass owner).bind fun ownerIndex =>
    (yields_internNameAndType name descriptor).bind fun nameType =>
      yields_intern (c := .member kind ownerIndex nameType) (by simp)).mono fun pool index h => ?_
  obtain ⟨ownerIndex, -, nameType, -, hget⟩ := h
  exact ⟨ownerIndex, nameType, hget⟩

theorem yields_run (r : Request) : r.run.Yields fun pool index => r.Answered pool index := by
  have hmember (kind : MemberKind) (hkind : kind ≠ .interfaceMethod)
      (owner name descriptor : String) :
      (internMember kind owner name descriptor).Yields fun pool index =>
        (∃ ownerIndex nameType, pool.get index = .ok (.member kind ownerIndex nameType)) ∧
          pool.getMember index = .ok ⟨owner, name, descriptor, false⟩ := by
    intro pool index later hrun
    obtain ⟨hgrows, hconstant⟩ := yields_memberConstant kind owner name descriptor _ _ _ hrun
    obtain ⟨-, hresolves⟩ := yields_internMember kind owner name descriptor _ _ _ hrun
    refine ⟨hgrows, fun after hafter => ⟨hconstant after hafter, ?_⟩⟩
    simpa [hkind] using hresolves after hafter
  cases r with
  | text content => exact yields_internText content
  | className name => exact yields_internClass name
  | string content => exact yields_internString content
  | method owner name descriptor => exact hmember .method (by decide) owner name descriptor
  | field owner name descriptor => exact hmember .field (by decide) owner name descriptor
  | _ => exact yields_intern (by simp)

/-- What is asked for is a constant. -/
theorem Answered.exists_get {pool : ConstantPool} {index : UInt16} {r : Request}
    (h : r.Answered pool index) : ∃ c, pool.get index = .ok c := by
  cases r with
  | text content =>
    obtain ⟨c, hget, -⟩ := Success.except_bind.mp h
    exact ⟨c, hget⟩
  | className name =>
    obtain ⟨c, hget, -⟩ := Success.except_bind.mp h
    exact ⟨c, hget⟩
  | string content =>
    obtain ⟨textIndex, hget, -⟩ := h
    exact ⟨_, hget⟩
  | method owner name descriptor =>
    obtain ⟨⟨ownerIndex, nameType, hget⟩, -⟩ := h
    exact ⟨_, hget⟩
  | field owner name descriptor =>
    obtain ⟨⟨ownerIndex, nameType, hget⟩, -⟩ := h
    exact ⟨_, hget⟩
  | _ => exact ⟨_, h⟩

end Request

/-! ## Runs of requests -/

/-- The pools that requests lead to from the empty pool or one that was read, where a request that
fails leaves what it had added before. -/
inductive Requested : ConstantPool → Prop
  | empty : Requested .empty
  | read {cursor after : Bytes.Cursor} {pool : ConstantPool} :
      ConstantPool.read cursor = .ok pool after → Requested pool
  | request {pool : ConstantPool} (r : Request) :
      Requested pool → Requested (stateAfter (r.run pool))

theorem Requested.regular {pool : ConstantPool} (h : pool.Requested) : pool.Regular := by
  induction h with
  | empty => exact regular_empty
  | read hread =>
    obtain ⟨_, ⟨hregular, -⟩, -⟩ := (parses_read _ _ _).mp hread
    exact hregular
  | request r _ ih => exact (r.keeps_run (fun c hc => keeps_intern hc) _).regular ih

/-- A request leaves all entries in their places with their meaning, and apart from the slots after
8-byte constants it adds no entry that equals an earlier one, also if it fails. An index that is
given stands for what was asked for. It is not slot 0 and not the slot after an 8-byte constant,
and the same request made again gives it once more and leaves the pool as it is. -/
theorem Requested.run_request {pool : ConstantPool} (h : pool.Requested) (r : Request) :
    pool.KeepsMeaning (stateAfter (r.run pool)) ∧
    (∀ place c, pool.size ≤ place → (stateAfter (r.run pool)).entries[place]? = some c →
      ¬(stateAfter (r.run pool)).IsShadow place →
      ∀ earlier < place, (stateAfter (r.run pool)).entries[earlier]? ≠ some c) ∧
    ∀ index later, r.run pool = .ok index later →
      r.Answered later index ∧ index ≠ 0 ∧ ¬later.IsShadow index.toNat ∧
        r.run later = .ok index later := by
  have hregular : (stateAfter (r.run pool)).Regular := (h.request r).regular
  refine ⟨(r.keeps_run (fun c hc => keeps_intern hc) pool).grows.keepsMeaning,
    fun place c hplace hc hshadow => ?_, fun index later hrun => ?_⟩
  · have hadds := r.keeps_run (fun c _ => keeps_intern_addsNew c) pool
    refine hadds.new place c hplace hc fun hunusable => ?_
    obtain ⟨hlt, -⟩ := Array.getElem?_eq_some_iff.mp (h.regular.getElem?_eq_unusable.mpr (.inl rfl))
    rcases hregular.getElem?_eq_unusable.mp (hunusable ▸ hc) with rfl | hslot
    · exact absurd hlt (Nat.not_lt.mpr hplace)
    · exact hshadow hslot
  · have hregular : later.Regular := by rwa [hrun] at hregular
    obtain ⟨-, hanswered⟩ := r.yields_run _ _ _ hrun
    obtain ⟨-, hagain⟩ := r.steady_run _ _ _ hrun
    have hindex := hanswered later (.refl later)
    obtain ⟨c, hget⟩ := hindex.exists_get
    obtain ⟨hentry, husable⟩ := get_eq_ok.mp hget
    have hslot : ¬(index.toNat = 0 ∨ later.IsShadow index.toNat) := by
      rw [← hregular.getElem?_eq_unusable, hentry]
      simpa using husable
    rw [not_or] at hslot
    exact ⟨hindex, fun hzero => hslot.1 (by rw [hzero]; rfl), hslot.2, hagain later (.refl later)⟩

/-- A pool with a text twice, an 8-byte constant, and a class whose name is missing. -/
def duplicated : ConstantPool :=
  ⟨#[.unusable, .utf8 "A", .utf8 "A", .long 7, .unusable, .classRef 9]⟩

/-- The pool with a method of the class `A`. -/
def duplicatedMethod : ConstantPool :=
  ⟨duplicated.entries ++ #[.classRef 1, .utf8 "f", .utf8 "()V", .nameAndType 7 8, .member .method 6 9]⟩

theorem Requested.run_request_duplicated :
    duplicated.Requested ∧
      (Request.method "A" "f" "()V").run duplicated = .ok 10 duplicatedMethod ∧
      duplicated.KeepsMeaning duplicatedMethod ∧
      (∀ place c, 6 ≤ place → duplicatedMethod.entries[place]? = some c →
        ¬duplicatedMethod.IsShadow place →
        ∀ earlier < place, duplicatedMethod.entries[earlier]? ≠ some c) ∧
      (Request.method "A" "f" "()V").Answered duplicatedMethod 10 ∧
      ¬duplicatedMethod.IsShadow 10 ∧
      (Request.method "A" "f" "()V").run duplicatedMethod = .ok 10 duplicatedMethod := by
  have hread : ConstantPool.read.runOn [0, 6, 1, 0, 1, 65, 1, 0, 1, 65, 5, 0, 0, 0, 0, 0, 0, 0, 7,
      7, 0, 9] = .ok duplicated := by
    decide +kernel
  obtain ⟨after, hread⟩ := Bytes.Reader.runOn_eq_ok.mp hread
  have hrun : (Request.method "A" "f" "()V").run duplicated = .ok 10 duplicatedMethod := by cbv
  obtain ⟨hmeaning, hnew, hanswer⟩ :=
    Requested.run_request (.read hread) (.method "A" "f" "()V")
  rw [hrun] at hmeaning hnew
  obtain ⟨hanswered, -, hshadow, hagain⟩ := hanswer 10 duplicatedMethod hrun
  exact ⟨.read hread, hrun, hmeaning, hnew, hanswered, hshadow, hagain⟩

end ConstantPool

end ClassPatch
