import Mathlib
import ClassPatch.Proofs.ConstantPool.Requests

/-!
# Full constant pools

The number of slots of a stored pool has two bytes. A constant for which there is no room is
refused only after it was added, so the first request that fails leaves too many slots to be
counted, and so it stays. Until then the slots can be counted, and every index that is given is
one of theirs.
-/

namespace ClassPatch

namespace ConstantPool

/-- The slots can be counted as long as there are not too many. -/
theorem exists_count_iff {pool : ConstantPool} :
    (∃ n, pool.count = .ok n ∧ n.toNat = pool.size) ↔ pool.size ≤ maxSize := by
  unfold count
  constructor
  · intro h
    obtain ⟨n, hn, -⟩ := h
    by_contra hfull
    rw [if_pos (Nat.not_le.mp hfull)] at hn
    cases hn
  · intro h
    rw [if_neg (Nat.not_lt.mpr h)]
    exact ⟨_, rfl, UInt16.toNat_ofNat_of_lt' (Nat.lt_succ_of_le h)⟩

/-! ## Single requests -/

/-- The edit fails exactly where it leaves too many slots, and it adds nothing where there were too
many before. -/
structure FillsUp (x : PoolEdit UInt16) : Prop where
  ok {pool later : ConstantPool} {index : UInt16} :
    x pool = .ok index later → pool.size ≤ maxSize → later.size ≤ maxSize
  error {pool later : ConstantPool} {e : Error} :
    x pool = .error e later → pool.size ≤ maxSize →
      maxSize < later.size ∧ later.size ≤ maxSize + 2
  overfull {pool : ConstantPool} : maxSize < pool.size → stateAfter (x pool) = pool

theorem fillsUp_intern (c : Constant) : FillsUp (intern c) where
  ok {pool later index} hrun hsize := by
    have hcases := interned_intern c pool
    rw [hrun] at hcases
    cases hcases with
    | found _ => exact hsize
    | added _ _ hgrown => exact hgrown
  error {pool later e} hrun hsize := by
    have hcases := interned_intern c pool
    rw [hrun] at hcases
    cases hcases with
    | overfull hfull => exact absurd hfull (Nat.not_lt.mpr hsize)
    | overflow _ _ hgrown =>
      refine ⟨hgrown, ?_⟩
      -- a constant of 8 bytes has two slots
      rw [size_push]
      split_ifs <;> omega
  overfull {pool} hfull := by
    have hcases := interned_intern c pool
    generalize intern c pool = result at hcases
    cases hcases with
    | found _ => rfl
    | overfull _ => rfl
    | overflow _ hsize _ => exact absurd hfull (Nat.not_lt.mpr hsize)
    | added _ hsize _ => exact absurd hfull (Nat.not_lt.mpr hsize)

theorem FillsUp.bind {x : PoolEdit UInt16} {f : UInt16 → PoolEdit UInt16} (hx : FillsUp x)
    (hf : ∀ index, FillsUp (f index)) : FillsUp (x >>= f) where
  ok hrun hsize := by
    obtain ⟨first, middle, hfirst, hrest⟩ := Success.state_bind.mp hrun
    exact (hf first).ok hrest (hx.ok hfirst hsize)
  error hrun hsize := by
    rcases Success.state_bind_eq_error.mp hrun with hfirst | ⟨first, middle, hfirst, hrest⟩
    · exact hx.error hfirst hsize
    · exact (hf first).error hrest (hx.ok hfirst hsize)
  overfull {pool} hfull := by
    have hsame := hx.overfull hfull
    cases hfirst : x pool with
    | error e middle =>
      rw [hfirst] at hsame
      rw [Success.state_bind_error hfirst]
      exact hsame
    | ok first middle =>
      rw [hfirst] at hsame
      obtain rfl : middle = pool := hsame
      rw [Success.state_bind_ok hfirst]
      exact (hf first).overfull hfull

theorem Request.fillsUp_run (r : Request) : FillsUp r.run :=
  run_of_intern (fun c _ => fillsUp_intern c) FillsUp.bind r

/-! ## Runs of requests -/

/-- The pool after requests, where one that fails leaves what it had added before. -/
def after (pool : ConstantPool) (requests : List Request) : ConstantPool :=
  requests.foldl (fun pool r => stateAfter (r.run pool)) pool

/-- The answers to requests made one after the other. One that fails has none. -/
def answers (pool : ConstantPool) : List Request → List (Option UInt16)
  | [] => []
  | r :: rest => match r.run pool with
    | .ok index later => some index :: answers later rest
    | .error _ later => none :: answers later rest

variable {pool : ConstantPool} {requests : List Request}

/-- A pool that is too large stays as it is. -/
theorem after_of_overfull (h : maxSize < pool.size) (requests : List Request) :
    pool.after requests = pool := by
  induction requests with
  | nil => rfl
  | cons r rest ih =>
    rw [after, List.foldl_cons, r.fillsUp_run.overfull h]
    exact ih

theorem size_le_size_after (pool : ConstantPool) (requests : List Request) :
    pool.size ≤ (pool.after requests).size := by
  induction requests generalizing pool with
  | nil => exact le_rfl
  | cons r rest ih =>
    have hstep := (r.keeps_run (fun c _ => keeps_intern_addsNew c) pool).size_le
    exact hstep.trans (ih _)

/-- The pool gets too large with the first request that fails, and by one constant only. -/
theorem size_after (h : pool.size ≤ maxSize) (requests : List Request) :
    ((pool.after requests).size ≤ maxSize ↔ none ∉ pool.answers requests) ∧
      (pool.after requests).size ≤ maxSize + 2 := by
  induction requests generalizing pool with
  | nil => exact ⟨iff_of_true h List.not_mem_nil, h.trans (Nat.le_add_right _ _)⟩
  | cons r rest ih =>
    rw [after, List.foldl_cons, answers]
    cases hrun : r.run pool with
    | ok index later =>
      obtain ⟨hiff, hle⟩ := ih (r.fillsUp_run.ok hrun h)
      exact ⟨hiff.trans (by simp), hle⟩
    | error e later =>
      obtain ⟨hfull, hle⟩ := r.fillsUp_run.error hrun h
      -- requests after the one that failed add nothing
      have hrest : List.foldl (fun pool r => stateAfter (r.run pool)) later rest = later :=
        after_of_overfull hfull rest
      rw [stateAfter, hrest]
      exact ⟨iff_of_false (Nat.not_le.mpr hfull) (by simp), hle⟩

/-- An index that is given is one of a slot. -/
theorem index_lt_size_after {index : UInt16} (h : some index ∈ pool.answers requests) :
    index.toNat < (pool.after requests).size := by
  induction requests generalizing pool with
  | nil => cases h
  | cons r rest ih =>
    rw [after, List.foldl_cons]
    rw [answers] at h
    cases hrun : r.run pool with
    | error e later =>
      rw [hrun] at h
      have hrest : some index ∈ later.answers rest := by simpa using h
      exact ih hrest
    | ok first later =>
      rw [hrun] at h
      rcases List.mem_cons.mp h with hfirst | hrest
      · obtain rfl := Option.some.inj hfirst
        obtain ⟨-, hanswered⟩ := r.yields_run _ _ _ hrun
        obtain ⟨c, hget⟩ := (hanswered later (.refl later)).exists_get
        obtain ⟨hlt, -⟩ := Array.getElem?_eq_some_iff.mp (get_eq_ok.mp hget).1
        exact hlt.trans_le (size_le_size_after later rest)
      · exact ih hrest

/-- The pool is the empty one or one that was read. -/
def Initial (pool : ConstantPool) : Prop :=
  pool = .empty ∨ ∃ cursor after, ConstantPool.read cursor = .ok pool after

theorem Initial.size_le (h : pool.Initial) : pool.size ≤ maxSize := by
  obtain rfl | ⟨cursor, after, hread⟩ := h
  · decide
  · obtain ⟨data, ⟨-, hdata⟩, -⟩ := (parses_read _ _ _).mp hread
    exact (bytes_eq_ok.mp hdata).1

/-- Requests to a new pool or one that was read leave a pool whose slots can be counted exactly if
none of them failed. After one has failed the pool is too large for good, but by no more than the
slots of one constant. An index that is given is always below the number of slots. -/
theorem Initial.count_after (h : pool.Initial) (requests : List Request) :
    ((∃ n, (pool.after requests).count = .ok n ∧ n.toNat = (pool.after requests).size) ↔
      none ∉ pool.answers requests) ∧
    (∀ index, some index ∈ pool.answers requests →
      index.toNat < (pool.after requests).size) ∧
    (pool.after requests).size ≤ maxSize + 2 ∧
    (none ∈ pool.answers requests → ∀ more,
      (pool.after requests).after more = pool.after requests) := by
  obtain ⟨hiff, hle⟩ := size_after h.size_le requests
  have hsize := exists_count_iff.trans hiff
  refine ⟨hsize, fun index => index_lt_size_after, hle, fun hfailed more => ?_⟩
  exact after_of_overfull (Nat.not_le.mp fun hroom => hiff.mp hroom hfailed) more

/-! ## A pool without room -/

/-- A constant that is new is added, and refused where there was no room for it. -/
theorem intern_of_not_mem {c : Constant} (hnew : c ∉ pool.entries.toList)
    (hsize : pool.size ≤ maxSize) :
    intern c pool = if maxSize < (pool.push c).size then
        .error (.rewriteFailed .poolFull) (pool.push c)
      else .ok (UInt16.ofNat pool.size) (pool.push c) := by
  have hcases := interned_intern c pool
  generalize intern c pool = result at hcases
  cases hcases with
  | found hfind =>
    have hentry := find?_eq_some hfind
    rw [← Array.getElem?_toList] at hentry
    exact absurd (List.mem_of_getElem? hentry) hnew
  | overfull hfull => exact absurd hfull (Nat.not_lt.mpr hsize)
  | overflow _ _ hgrown => rw [if_pos hgrown]
  | added _ _ hgrown => rw [if_neg (Nat.not_lt.mpr hgrown)]

/-- A constant that is there is found. -/
theorem intern_of_mem {c : Constant} (hmem : c ∈ pool.entries.toList)
    (hsize : pool.size ≤ maxSize) : ∃ index, intern c pool = .ok index pool := by
  have hcases := interned_intern c pool
  generalize intern c pool = result at hcases
  cases hcases with
  | found _ => exact ⟨_, rfl⟩
  | overfull hfull => exact absurd hfull (Nat.not_lt.mpr hsize)
  | overflow hnew _ _ => exact absurd hmem hnew
  | added hnew _ _ => exact absurd hmem hnew

/-- A pool of some constants and, after them, of equal integers. -/
def padded (constants : List Constant) (n : Nat) : ConstantPool :=
  ⟨(.unusable :: (constants ++ List.replicate n (.integer 1))).toArray⟩

variable {constants : List Constant} {n : Nat}

theorem size_padded : (padded constants n).size = constants.length + n + 1 := by
  simp [size, padded]

theorem mem_padded {c : Constant} (hne : c ≠ .integer 1) (hc : c ≠ .unusable) :
    c ∈ (padded constants n).entries.toList ↔ c ∈ constants := by
  rw [padded, List.toList_toArray, List.mem_cons, List.mem_append]
  constructor
  · intro h
    obtain rfl | hmem | hmem := h
    · exact absurd rfl hc
    · exact hmem
    · exact absurd (List.eq_of_mem_replicate hmem) hne
  · exact fun hmem => .inr (.inl hmem)

/-- Without wide constants, each fills one slot. -/
theorem regular_padded (h : ∀ c ∈ constants, c ≠ .unusable ∧ c.isWide = false) :
    (padded constants n).Regular := by
  have hall : ∀ c ∈ constants ++ List.replicate n (Constant.integer 1),
      c ≠ .unusable ∧ c.isWide = false := by
    refine List.forall_mem_append.mpr ⟨h, fun c hc => ?_⟩
    rw [List.eq_of_mem_replicate hc]
    simp [Constant.isWide]
  refine ⟨_, fun c hc => (hall c hc).1, ?_⟩
  rw [padded, List.toList_toArray]
  generalize constants ++ List.replicate n (Constant.integer 1) = all at hall ⊢
  have hslots : all.flatMap Constant.slots = all.flatMap ([·]) :=
    List.flatMap_congr fun c hc => by simp [Constant.slots, (hall c hc).2]
  rw [hslots, List.flatMap_singleton']

theorem exists_bytes_padded (hsize : constants.length + n + 1 ≤ maxSize)
    (h : ∀ c ∈ constants, ∃ data, c.bytes = .ok data) :
    ∃ data, (padded constants n).bytes = .ok data := by
  obtain ⟨parts, hparts⟩ :
      ∃ parts, (padded constants n).entries.toList.mapM Constant.bytes = .ok parts := by
    refine Success.exists_except_mapM.mpr fun c hc => ?_
    rw [padded, List.toList_toArray, List.mem_cons, List.mem_append] at hc
    obtain rfl | hc | hc := hc
    · exact ⟨_, rfl⟩
    · exact h c hc
    · rw [List.eq_of_mem_replicate hc]
      exact ⟨_, rfl⟩
  exact ⟨_, bytes_eq_ok.mpr ⟨size_padded.trans_le hsize, parts, hparts, rfl⟩⟩

theorem initial_padded (hsize : n + 1 ≤ maxSize) : (padded [] n).Initial := by
  have hregular : (padded [] n).Regular := regular_padded (List.forall_mem_nil _)
  obtain ⟨data, hdata⟩ := exists_bytes_padded (by simpa using hsize) (List.forall_mem_nil _)
  have hrest : (Bytes.Cursor.ofBytes data).rest = data ++ [] := by
    rw [Bytes.Cursor.rest_ofBytes, List.append_nil]
  exact .inr ⟨_, _, parses_read.run ⟨hregular, hdata⟩ hrest⟩

/-- There is room for one more text, and for an integer of 8 bytes there is not. -/
theorem answers_text_long {text : String} {value : Int64}
    (htext : .utf8 text ∉ pool.entries.toList) (hlong : .long value ∉ pool.entries.toList)
    (hsize : pool.size = 65534) :
    pool.answers [.text text, .long value] = [some 65534, none] := by
  have hroom := intern_of_not_mem htext (hsize.trans_le (by decide))
  rw [size_push, hsize, if_neg (by simp [maxSize, Constant.isWide])] at hroom
  have hnew : .long value ∉ (pool.push (.utf8 text)).entries.toList := by
    rw [push, Array.toList_appendList, List.mem_append, not_or]
    exact ⟨hlong, by simp [Constant.slots, Constant.isWide]⟩
  have hlater : (pool.push (.utf8 text)).size = 65535 := by
    rw [size_push, hsize]
    rfl
  have hfull := intern_of_not_mem hnew (hlater.trans_le (by decide))
  rw [size_push, hlater, if_pos (by simp [maxSize, Constant.isWide])] at hfull
  have hfirst : (Request.text text).run pool = .ok 65534 (pool.push (.utf8 text)) := hroom
  have hsecond : (Request.long value).run (pool.push (.utf8 text)) =
      .error (.rewriteFailed .poolFull) ((pool.push (.utf8 text)).push (.long value)) := hfull
  simp only [answers, hfirst, hsecond]

/-- A text for which the last slot is missing is left in the pool, and it is found when it is asked
for again. -/
theorem answers_text_twice {text : String} (htext : .utf8 text ∉ pool.entries.toList)
    (hsize : pool.size = maxSize) :
    pool.answers [.text text, .text text] = [none, some 65535] := by
  have hfull := intern_of_not_mem htext hsize.le
  rw [size_push, hsize, if_pos (by simp [Constant.isWide])] at hfull
  have hfind := find?_push htext (hsize.trans_le (by decide))
  rw [hsize] at hfind
  have hfirst : (Request.text text).run pool =
      .error (.rewriteFailed .poolFull) (pool.push (.utf8 text)) := hfull
  have hsecond : (Request.text text).run (pool.push (.utf8 text)) =
      .ok 65535 (pool.push (.utf8 text)) := by
    rw [Request.run, internText, intern, hfind]
    rfl
  simp only [answers, hfirst, hsecond]

/-- There is room for a text, but not for an integer of 8 bytes after it. -/
theorem Initial.count_after_long : (padded [] 65533).Initial ∧
    (padded [] 65533).answers [.text "A", .long 7] = [some 65534, none] ∧
    (¬∃ n, ((padded [] 65533).after [.text "A", .long 7]).count = .ok n ∧
      n.toNat = ((padded [] 65533).after [.text "A", .long 7]).size) ∧
    65534 < ((padded [] 65533).after [.text "A", .long 7]).size ∧
    ((padded [] 65533).after [.text "A", .long 7]).size ≤ maxSize + 2 := by
  have hinitial : (padded [] 65533).Initial := initial_padded (by decide)
  have hsize : (padded [] 65533).size = 65534 := size_padded
  have htext : .utf8 "A" ∉ (padded [] 65533).entries.toList :=
    mt (mem_padded (by simp) (by simp)).mp List.not_mem_nil
  have hlong : .long 7 ∉ (padded [] 65533).entries.toList :=
    mt (mem_padded (by simp) (by simp)).mp List.not_mem_nil
  have hanswers := answers_text_long htext hlong hsize
  obtain ⟨hcount, hindex, hle, -⟩ := Initial.count_after hinitial [.text "A", .long 7]
  rw [hanswers] at hcount hindex
  exact ⟨hinitial, hanswers, fun h => hcount.mp h (by simp), hindex 65534 (by simp), hle⟩

/-- Where the last slot is taken, a text that is refused is left in the pool. The slots can not be
counted after that, and the text is found when it is asked for again. -/
theorem count_after_refused : (padded [] 65534).Initial ∧ (padded [] 65534).count = .ok 65535 ∧
    (padded [] 65534).answers [.text "A", .text "A"] = [none, some 65535] ∧
    ∀ n, ((padded [] 65534).after [.text "A"]).count ≠ .ok n := by
  have hinitial : (padded [] 65534).Initial := initial_padded (by decide)
  have hsize : (padded [] 65534).size = 65535 := size_padded
  have htext : .utf8 "A" ∉ (padded [] 65534).entries.toList :=
    mt (mem_padded (by simp) (by simp)).mp List.not_mem_nil
  generalize padded [] 65534 = pool at hinitial hsize htext
  have hfull := intern_of_not_mem htext (hsize.trans_le (by decide))
  rw [size_push, hsize, if_pos (by simp [maxSize, Constant.isWide])] at hfull
  have hafter : pool.after [.text "A"] = pool.push (.utf8 "A") := by
    rw [after, List.foldl_cons, List.foldl_nil, Request.run, internText, hfull, stateAfter]
  refine ⟨hinitial, ?_, answers_text_twice htext hsize, fun n hn => ?_⟩
  · rw [count, hsize]
    rfl
  · rw [hafter, count, size_push, hsize, if_pos (by decide)] at hn
    cases hn

end ConstantPool

end ClassPatch
