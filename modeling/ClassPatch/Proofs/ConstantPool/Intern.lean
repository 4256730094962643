import Mathlib
import ClassPatch.ConstantPool.Intern
import ClassPatch.Proofs.Success

/-!
# Growing constant pools

Pools only ever get entries at their end, so whatever an index stands for it stands for
in every later pool. An edit that gives indices is described by what its result means in
the pool that it leaves and in all later ones, `PoolEdit.Yields`.
-/

namespace ClassPatch

namespace ConstantPool

/-- A later pool, which has the same entries and perhaps constants after them that were not
there before. -/
def Grows (pool later : ConstantPool) : Prop :=
  ∃ added, later.entries.toList = pool.entries.toList ++ added ∧
    ∀ c ∈ added, c ≠ .unusable → c ∉ pool.entries.toList

theorem Grows.refl (pool : ConstantPool) : pool.Grows pool :=
  ⟨[], (List.append_nil _).symm, fun c hc => by cases hc⟩

theorem Grows.trans {p₁ p₂ p₃ : ConstantPool} (h : p₁.Grows p₂) (h' : p₂.Grows p₃) :
    p₁.Grows p₃ := by
  obtain ⟨first, hfirst, hnew⟩ := h
  obtain ⟨second, hsecond, hnew'⟩ := h'
  refine ⟨first ++ second, by rw [hsecond, hfirst, List.append_assoc], fun c hc husable hmem => ?_⟩
  rcases List.mem_append.mp hc with hc | hc
  · exact hnew c hc husable hmem
  · refine hnew' c hc husable ?_
    rw [hfirst]
    exact List.mem_append_left _ hmem

/-! ## Resolving in later pools -/

theorem get_eq_ok {pool : ConstantPool} {index : UInt16} {c : Constant} :
    pool.get index = .ok c ↔ pool.entries[index.toNat]? = some c ∧ c ≠ .unusable := by
  unfold get
  split
  · rename_i h
    simp [h]
  · rename_i h
    rw [h]
    constructor
    · intro hget
      cases hget
    · intro hget
      exact absurd (Option.some.inj hget.1).symm hget.2
  · rename_i c' hne h
    rw [h]
    constructor
    · intro hget
      cases hget
      exact ⟨rfl, hne⟩
    · intro hget
      rw [Option.some.inj hget.1]

theorem getText_eq_ok {pool : ConstantPool} {index : UInt16} {text : String} :
    pool.getText index = .ok text ↔ pool.entries[index.toNat]? = some (.utf8 text) := by
  unfold getText
  rw [Success.except_bind]
  constructor
  · intro h
    obtain ⟨c, hget, hc⟩ := h
    cases c with
    | utf8 text' =>
      cases hc
      exact (get_eq_ok.mp hget).1
    | _ => cases hc
  · intro h
    exact ⟨.utf8 text, get_eq_ok.mpr ⟨h, by simp⟩, rfl⟩

namespace Grows

variable {pool later : ConstantPool} {index : UInt16}

theorem get {c : Constant} (h : pool.Grows later) (hget : pool.get index = .ok c) :
    later.get index = .ok c := by
  rw [get_eq_ok] at hget ⊢
  refine ⟨?_, hget.2⟩
  rw [← Array.getElem?_toList] at hget ⊢
  obtain ⟨added, hadded, -⟩ := h
  obtain ⟨hlt, -⟩ := List.getElem?_eq_some_iff.mp hget.1
  rw [hadded, List.getElem?_append_left hlt]
  exact hget.1

theorem getText {text : String} (h : pool.Grows later) (htext : pool.getText index = .ok text) :
    later.getText index = .ok text := by
  unfold ConstantPool.getText at htext ⊢
  obtain ⟨c, hget, hc⟩ := Success.except_bind.mp htext
  exact Success.except_bind.mpr ⟨c, h.get hget, hc⟩

/-- Where a text is known already, no other index starts to stand for it. -/
theorem getText_iff {text : String} {known : UInt16} (h : pool.Grows later)
    (hknown : pool.getText known = .ok text) :
    later.getText index = .ok text ↔ pool.getText index = .ok text := by
  refine ⟨fun htext => ?_, h.getText⟩
  obtain ⟨added, hadded, hnew⟩ := h
  rw [getText_eq_ok] at htext hknown ⊢
  rw [← Array.getElem?_toList] at htext hknown ⊢
  rw [hadded, List.getElem?_append] at htext
  split at htext
  · exact htext
  · exact absurd (List.mem_of_getElem? hknown) (hnew _ (List.mem_of_getElem? htext) (by simp))

theorem getClassName {name : String} (h : pool.Grows later)
    (hname : pool.getClassName index = .ok name) : later.getClassName index = .ok name := by
  unfold ConstantPool.getClassName at hname ⊢
  obtain ⟨c, hget, hc⟩ := Success.except_bind.mp hname
  refine Success.except_bind.mpr ⟨c, h.get hget, ?_⟩
  cases c with
  | classRef nameIndex => exact h.getText hc
  | _ => cases hc

theorem getMember {m : MemberRef} (h : pool.Grows later) (hm : pool.getMember index = .ok m) :
    later.getMember index = .ok m := by
  unfold ConstantPool.getMember at hm ⊢
  obtain ⟨c, hget, hc⟩ := Success.except_bind.mp hm
  refine Success.except_bind.mpr ⟨c, h.get hget, ?_⟩
  cases c with
  | member kind owner nameType =>
    obtain ⟨c', hget', hc'⟩ := Success.except_bind.mp hc
    refine Success.except_bind.mpr ⟨c', h.get hget', ?_⟩
    cases c' with
    | nameAndType name descriptor =>
      obtain ⟨ownerName, howner, hrest⟩ := Success.except_bind.mp hc'
      obtain ⟨nameText, hname, hrest'⟩ := Success.except_bind.mp hrest
      obtain ⟨descriptorText, hdescriptor, hpure⟩ := Success.except_bind.mp hrest'
      exact Success.except_bind.mpr ⟨ownerName, h.getClassName howner,
        Success.except_bind.mpr ⟨nameText, h.getText hname,
        Success.except_bind.mpr ⟨descriptorText, h.getText hdescriptor, hpure⟩⟩⟩
    | _ => cases hc'
  | _ => cases hc

end Grows

/-- What an index stands for in a pool it stands for in a later one. -/
structure KeepsMeaning (pool later : ConstantPool) : Prop where
  get : ∀ index constant, pool.get index = .ok constant → later.get index = .ok constant
  text : ∀ index text, pool.getText index = .ok text → later.getText index = .ok text
  className : ∀ index name, pool.getClassName index = .ok name →
    later.getClassName index = .ok name
  member : ∀ index m, pool.getMember index = .ok m → later.getMember index = .ok m

theorem Grows.keepsMeaning {pool later : ConstantPool} (h : pool.Grows later) :
    pool.KeepsMeaning later where
  get _ _ hget := h.get hget
  text _ _ htext := h.getText htext
  className _ _ hname := h.getClassName hname
  member _ _ hm := h.getMember hm

/-! ## Adding constants -/

/-- The index of a constant is that of its first entry. -/
theorem find?_eq_some_iff {pool : ConstantPool} {c : Constant} {index : UInt16} :
    pool.find? c = some index ↔ pool.entries[index.toNat]? = some c ∧
      ∀ earlier < index.toNat, pool.entries[earlier]? ≠ some c := by
  unfold find?
  rw [Array.idxOf?_eq_map_finIdxOf?_val]
  constructor
  · intro h
    cases hfound : pool.entries.finIdxOf? c with
    | none => simp [hfound] at h
    | some found =>
      obtain ⟨hentry, hfirst⟩ := Array.finIdxOf?_eq_some_iff.mp hfound
      simp only [hfound, Option.map_some, Option.ite_none_right_eq_some, Option.some.injEq] at h
      obtain ⟨hlt, rfl⟩ := h
      rw [UInt16.toNat_ofNat_of_lt' hlt]
      refine ⟨by simpa using hentry, ?_⟩
      intro earlier hearlier
      have hne := hfirst ⟨earlier, hearlier.trans found.isLt⟩ hearlier
      simpa [Array.getElem?_eq_getElem (hearlier.trans found.isLt)] using hne
  · intro h
    obtain ⟨hentry, hfirst⟩ := h
    obtain ⟨hlt, hentry⟩ := Array.getElem?_eq_some_iff.mp hentry
    have hfound : pool.entries.finIdxOf? c = some ⟨index.toNat, hlt⟩ := by
      rw [Array.finIdxOf?_eq_some_iff]
      refine ⟨hentry, ?_⟩
      intro earlier hearlier
      have hne := hfirst earlier hearlier
      simpa [Array.getElem?_eq_getElem earlier.isLt] using hne
    simp [hfound, index.toNat_lt]

theorem find?_eq_some {pool : ConstantPool} {c : Constant} {index : UInt16}
    (h : pool.find? c = some index) : pool.entries[index.toNat]? = some c :=
  (find?_eq_some_iff.mp h).1

/-- A constant that is not found is not there, unless the pool is larger than it may be. -/
theorem not_mem_of_find?_eq_none {pool : ConstantPool} {c : Constant} (h : pool.find? c = none)
    (hsize : pool.size ≤ maxSize) : c ∉ pool.entries.toList := by
  intro hmem
  unfold find? at h
  cases hindex : pool.entries.idxOf? c with
  | none => exact Array.idxOf?_eq_none_iff.mp hindex (Array.mem_toList_iff.mp hmem)
  | some index =>
    rw [hindex] at h
    rw [Array.idxOf?_eq_map_finIdxOf?_val] at hindex
    obtain ⟨found, -, rfl⟩ := Option.map_eq_some_iff.mp hindex
    have hlt : found.val < UInt16.size := lt_of_lt_of_le found.isLt (hsize.trans (by decide))
    simp [hlt] at h

theorem grows_push {pool : ConstantPool} {c : Constant} (h : c ∉ pool.entries.toList) :
    pool.Grows (pool.push c) := by
  refine ⟨c.slots, by rw [push, Array.toList_appendList], fun added hadded husable => ?_⟩
  have hsame : added = c := by
    unfold Constant.slots at hadded
    split at hadded
    · rcases List.mem_cons.mp hadded with hsame | hsecond
      · exact hsame
      · exact absurd (List.mem_singleton.mp hsecond) husable
    · exact List.mem_singleton.mp hadded
  rw [hsame]
  exact h

/-- A constant fills one slot or two. -/
theorem size_push (pool : ConstantPool) (c : Constant) :
    (pool.push c).size = pool.size + if c.isWide then 2 else 1 := by
  rw [size, push, ← Array.length_toList, Array.toList_appendList, List.length_append,
    Array.length_toList, Constant.slots]
  split_ifs <;> rfl

theorem size_lt_size_push (pool : ConstantPool) (c : Constant) :
    pool.size < (pool.push c).size := by
  rw [size_push]
  split_ifs <;> omega

/-- What interning a constant comes to. -/
inductive Interned (c : Constant) (pool : ConstantPool) :
    EStateM.Result Error ConstantPool UInt16 → Prop
  /-- The constant is there. -/
  | found {index : UInt16} : pool.find? c = some index → Interned c pool (.ok index pool)
  /-- The pool is too large already. -/
  | overfull : maxSize < pool.size → Interned c pool (.error (.rewriteFailed .poolFull) pool)
  /-- The constant makes the pool too large, and stays in it. -/
  | overflow : c ∉ pool.entries.toList → pool.size ≤ maxSize → maxSize < (pool.push c).size →
      Interned c pool (.error (.rewriteFailed .poolFull) (pool.push c))
  /-- The constant is added. -/
  | added : c ∉ pool.entries.toList → pool.size ≤ maxSize → (pool.push c).size ≤ maxSize →
      Interned c pool (.ok (UInt16.ofNat pool.size) (pool.push c))

theorem interned_intern (c : Constant) (pool : ConstantPool) :
    Interned c pool (intern c pool) := by
  unfold intern
  cases hfind : pool.find? c with
  | some index => exact .found hfind
  | none =>
    by_cases hfull : maxSize < pool.size
    · simp only [hfull, if_true]
      exact .overfull hfull
    have hsize : pool.size ≤ maxSize := Nat.not_lt.mp hfull
    have hnew := not_mem_of_find?_eq_none hfind hsize
    by_cases hgrown : maxSize < (pool.push c).size
    · simp only [hfull, if_false, hgrown, if_true]
      exact .overflow hnew hsize hgrown
    · simp only [hfull, if_false, hgrown]
      exact .added hnew hsize (Nat.not_lt.mp hgrown)

/-- An edit only adds entries, whether it fails or not. -/
theorem intern_grows (c : Constant) (pool : ConstantPool) :
    match intern c pool with
    | .ok _ later => pool.Grows later
    | .error _ later => pool.Grows later := by
  have hcases := interned_intern c pool
  generalize intern c pool = result at hcases
  cases hcases with
  | found _ => exact .refl pool
  | overfull _ => exact .refl pool
  | overflow hnew _ _ => exact grows_push hnew
  | added hnew _ _ => exact grows_push hnew

theorem get_of_intern {c : Constant} (hc : c ≠ .unusable) {pool later : ConstantPool}
    {index : UInt16} (h : intern c pool = .ok index later) : later.get index = .ok c := by
  rw [get_eq_ok]
  refine ⟨?_, hc⟩
  have hcases := interned_intern c pool
  rw [h] at hcases
  cases hcases with
  | found hfind => exact find?_eq_some hfind
  | added _ hsize _ =>
    rw [UInt16.toNat_ofNat_of_lt' (Nat.lt_succ_of_le hsize), push,
      ← Array.getElem?_toList, Array.toList_appendList, size, ← Array.length_toList,
      List.getElem?_append_right (Nat.le_refl _), Nat.sub_self]
    unfold Constant.slots
    split <;> rfl

end ConstantPool

/-! ## Edits and what their results mean -/

namespace PoolEdit

variable {α β : Type}

/-- If the edit succeeds, the pool has grown and the result has a property in all later pools. -/
def Yields (x : PoolEdit α) (P : ConstantPool → α → Prop) : Prop :=
  ∀ pool a pool', x pool = .ok a pool' →
    pool.Grows pool' ∧ ∀ later, pool'.Grows later → P later a

theorem Yields.mono {x : PoolEdit α} {P Q : ConstantPool → α → Prop} (hx : x.Yields P)
    (h : ∀ pool a, P pool a → Q pool a) : x.Yields Q := by
  intro pool a pool' hrun
  obtain ⟨hgrows, hP⟩ := hx pool a pool' hrun
  exact ⟨hgrows, fun later hlater => h later a (hP later hlater)⟩

theorem Yields.pure {a : α} {P : ConstantPool → α → Prop} (h : ∀ pool, P pool a) :
    (Pure.pure a : PoolEdit α).Yields P := by
  intro pool b pool' hrun
  obtain ⟨rfl, rfl⟩ := Success.state_pure.mp hrun
  exact ⟨.refl _, fun later _ => h later⟩

theorem Yields.bind {x : PoolEdit α} {f : α → PoolEdit β} {P : ConstantPool → α → Prop}
    {Q : α → ConstantPool → β → Prop} (hx : x.Yields P) (hf : ∀ a, (f a).Yields (Q a)) :
    (x >>= f).Yields fun pool b => ∃ a, P pool a ∧ Q a pool b := by
  intro pool b pool'' hrun
  obtain ⟨a, pool', ha, hb⟩ := Success.state_bind.mp hrun
  obtain ⟨hgrows, hP⟩ := hx pool a pool' ha
  obtain ⟨hgrows', hQ⟩ := hf a pool' b pool'' hb
  exact ⟨hgrows.trans hgrows', fun later hlater =>
    ⟨a, hP later (hgrows'.trans hlater), hQ later hlater⟩⟩

/-- The edit after may rely on what the one before yields. -/
theorem Yields.andThen {x : PoolEdit α} {f : α → PoolEdit β} {P : ConstantPool → α → Prop}
    {Q : ConstantPool → β → Prop} (hx : x.Yields P)
    (hf : ∀ a, (f a).Yields fun pool b => P pool a → Q pool b) : (x >>= f).Yields Q := by
  refine (hx.bind hf).mono fun pool b h => ?_
  obtain ⟨a, ha, hb⟩ := h
  exact hb ha

/-- An edit followed by a function of its result. -/
theorem Yields.map {x : PoolEdit α} {P : ConstantPool → α → Prop} (hx : x.Yields P) (f : α → β) :
    (do return f (← x) : PoolEdit β).Yields fun pool b => ∃ a, P pool a ∧ b = f a :=
  (hx.bind fun a => .pure (P := fun _ b => b = f a) fun _ => rfl).mono fun _ _ h => h

theorem Yields.throw (e : Error) {P : ConstantPool → α → Prop} :
    (MonadExcept.throw e : PoolEdit α).Yields P := by
  intro pool a pool' hrun
  exact absurd hrun Success.state_throw

theorem ofExcept_eq_ok {x : Except Error α} {pool pool' : ConstantPool} {a : α} :
    ofExcept x pool = .ok a pool' ↔ x = .ok a ∧ pool' = pool := by
  cases x with
  | error e => simp [ofExcept, Success.state_throw]
  | ok a' => simp [ofExcept, Success.state_pure, eq_comm]

theorem ofExcept_eq_error {x : Except Error α} {pool pool' : ConstantPool} {e : Error}
    (h : ofExcept x pool = .error e pool') : x = .error e := by
  cases x with
  | error e' =>
    cases h
    rfl
  | ok a => cases h

theorem yields_ofExcept (x : Except Error α) : (ofExcept x).Yields fun _ a => x = .ok a := by
  intro pool a pool' hrun
  obtain ⟨hx, rfl⟩ := ofExcept_eq_ok.mp hrun
  exact ⟨.refl _, fun _ _ => hx⟩

end PoolEdit

namespace ConstantPool

theorem yields_intern {c : Constant} (hc : c ≠ .unusable) :
    (intern c).Yields fun pool index => pool.get index = .ok c := by
  intro pool index pool' hrun
  have hgrows := intern_grows c pool
  rw [hrun] at hgrows
  exact ⟨hgrows, fun later hlater => hlater.get (get_of_intern hc hrun)⟩

theorem yields_internText (text : String) :
    (internText text).Yields fun pool index => pool.getText index = .ok text := by
  refine (yields_intern (c := .utf8 text) (by simp)).mono fun pool index hget => ?_
  rw [getText, hget]
  rfl

theorem yields_internClass (name : String) :
    (internClass name).Yields fun pool index => pool.getClassName index = .ok name := by
  refine ((yields_internText name).bind fun nameIndex =>
    yields_intern (c := .classRef nameIndex) (by simp)).mono fun pool index h => ?_
  obtain ⟨nameIndex, hname, hget⟩ := h
  rw [getClassName, hget]
  exact hname

theorem yields_internString (text : String) :
    (internString text).Yields fun pool index =>
      ∃ textIndex, pool.get index = .ok (.string textIndex) ∧ pool.getText textIndex = .ok text := by
  refine ((yields_internText text).bind fun textIndex =>
    yields_intern (c := .string textIndex) (by simp)).mono fun pool index h => ?_
  obtain ⟨textIndex, htext, hget⟩ := h
  exact ⟨textIndex, hget, htext⟩

theorem yields_internNameAndType (name descriptor : String) :
    (internNameAndType name descriptor).Yields fun pool index =>
      ∃ nameIndex descriptorIndex, pool.get index = .ok (.nameAndType nameIndex descriptorIndex) ∧
        pool.getText nameIndex = .ok name ∧ pool.getText descriptorIndex = .ok descriptor := by
  refine ((yields_internText name).bind fun nameIndex =>
    (yields_internText descriptor).bind fun descriptorIndex =>
      yields_intern (c := .nameAndType nameIndex descriptorIndex) (by simp)).mono
        fun pool index h => ?_
  obtain ⟨nameIndex, hname, descriptorIndex, hdescriptor, hget⟩ := h
  exact ⟨nameIndex, descriptorIndex, hget, hname, hdescriptor⟩

theorem yields_internMember (kind : MemberKind) (owner name descriptor : String) :
    (internMember kind owner name descriptor).Yields fun pool index =>
      pool.getMember index =
        .ok { owner, name, descriptor, isInterface := kind = .interfaceMethod } := by
  refine ((yields_internClass owner).bind fun ownerIndex =>
    (yields_internNameAndType name descriptor).bind fun nameType =>
      yields_intern (c := .member kind ownerIndex nameType) (by simp)).mono fun pool index h => ?_
  obtain ⟨ownerIndex, howner, nameType, ⟨nameIndex, descriptorIndex, hnameType, hname,
    hdescriptor⟩, hget⟩ := h
  unfold getMember
  exact Success.except_bind.mpr ⟨_, hget, Success.except_bind.mpr ⟨_, hnameType,
    Success.except_bind.mpr ⟨_, howner, Success.except_bind.mpr ⟨_, hname,
      Success.except_bind.mpr ⟨_, hdescriptor, rfl⟩⟩⟩⟩⟩

end ConstantPool

end ClassPatch
