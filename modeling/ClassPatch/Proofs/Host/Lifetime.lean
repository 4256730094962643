import Mathlib
import ClassPatch.Proofs.Host.Heap

/-!
# Lifetimes of objects and caches

What a heap holds after objects and caches came and went, told by what was done before: how many
handles an object has, which hooks it got, which caches there are, and which font names an object
was given last. The heap agrees with its history after every step, so that the font names of an
object are remembered exactly as long as it lives, and its hooks run when the last handle goes.
-/

namespace ClassPatch.Host

open Font (NameTable)

/-- The tag that a hook notes in the log, if it does. -/
def Hook.tag? : Hook → Option String
  | .record tag => some tag
  | .evict _ => none

namespace Heap

variable {h : Heap} {cache : CacheId} {id owner : ObjectId} {count : Nat} {hooks : List Hook}

/-! ### Objects after single steps -/

/-- The number of handles to a living object and its hooks. -/
def held? (h : Heap) (id : ObjectId) : Option (Nat × List Hook) :=
  h.objects[id]?.map fun o => (o.handles, o.hooks)

theorem held?_eq_some : h.held? id = some (count, hooks) ↔
    ∃ o, h.objects[id]? = some o ∧ o.handles = count ∧ o.hooks = hooks := by
  simp [held?]

theorem live_iff_held? : h.Live id ↔ (h.held? id).isSome := by
  rw [Live, Std.HashMap.mem_iff_isSome_getElem?, held?, Option.isSome_map]

/-- Putting an object in its place leaves all others. -/
theorem map_getElem?_insert (o : HostObject) (other : ObjectId) :
    (h.objects.insert id o)[other]?.map (fun o => (o.handles, o.hooks)) =
      if id = other then some (o.handles, o.hooks) else h.held? other := by
  rw [Std.HashMap.getElem?_insert]
  by_cases hsame : id = other
  · simp [hsame]
  · simp [hsame, held?]

theorem held?_create (h : Heap) (className : String) (other : ObjectId) :
    (h.create className).2.held? other =
      if (⟨h.nextObject⟩ : ObjectId) = other then some (1, []) else h.held? other :=
  map_getElem?_insert _ other

theorem retain_of_held (hheld : h.held? id = some (count, hooks)) :
    ∃ objects, h.retain id = { h with objects } ∧ ∀ other, ({ h with objects } : Heap).held? other =
      if id = other then some (count + 1, hooks) else h.held? other := by
  obtain ⟨o, hobject, rfl, rfl⟩ := held?_eq_some.mp hheld
  refine ⟨h.objects.insert id { o with handles := o.handles + 1 }, ?_, map_getElem?_insert _⟩
  unfold retain
  rw [hobject]

theorem onDrop_of_held (hheld : h.held? id = some (count, hooks)) (hook : Hook) :
    ∃ objects, h.onDrop id hook = { h with objects } ∧ ∀ other,
      ({ h with objects } : Heap).held? other =
        if id = other then some (count, hooks ++ [hook]) else h.held? other := by
  obtain ⟨o, hobject, rfl, rfl⟩ := held?_eq_some.mp hheld
  refine ⟨h.objects.insert id { o with hooks := o.hooks ++ [hook] }, ?_, map_getElem?_insert _⟩
  unfold onDrop
  rw [hobject]

/-! ### Font names after single steps -/

theorem fontNames?_insert (tables : Std.HashMap ObjectId NameTable) (filled : CacheId)
    (other : ObjectId) :
    ({ h with caches := h.caches.insert cache tables } : Heap).fontNames? filled other =
      if cache = filled then tables[other]? else h.fontNames? filled other := by
  rw [fontNames?, cacheTables, Std.HashMap.getD_insert]
  by_cases hcache : cache = filled
  · simp [hcache]
  · simp [hcache, fontNames?, cacheTables]

theorem fontNames?_of_tables {tables : Std.HashMap ObjectId NameTable}
    (htables : h.caches[cache]? = some tables) (other : ObjectId) :
    h.fontNames? cache other = tables[other]? := by
  rw [fontNames?, cacheTables, Std.HashMap.getD_eq_getD_getElem?, htables, Option.getD_some]

/-- The first font names that an object gets in a cache register a hook. -/
theorem rememberFont_of_held (hcache : cache ∈ h.caches)
    (hheld : h.held? owner = some (count, hooks)) (table : NameTable) :
    ∃ objects caches, h.rememberFont cache owner table = { h with objects, caches } ∧
      (∀ other, ({ h with objects, caches } : Heap).held? other =
        if owner = other ∧ h.fontNames? cache owner = none then
          some (count, hooks ++ [.evict cache])
        else h.held? other) ∧
      (∀ filled, filled ∈ caches ↔ filled ∈ h.caches) ∧
      ∀ filled other, ({ h with objects, caches } : Heap).fontNames? filled other =
        if cache = filled ∧ owner = other then some table else h.fontNames? filled other := by
  obtain ⟨tables, htables⟩ : ∃ tables, h.caches[cache]? = some tables :=
    Option.isSome_iff_exists.mp (Std.HashMap.mem_iff_isSome_getElem?.mp hcache)
  have hmem (filled : CacheId) :
      filled ∈ h.caches.insert cache (tables.insert owner table) ↔ filled ∈ h.caches := by
    rw [Std.HashMap.mem_insert, beq_iff_eq]
    refine or_iff_right_of_imp ?_
    rintro rfl
    exact hcache
  have hnames (filled : CacheId) (other : ObjectId) :
      ({ h with caches := h.caches.insert cache (tables.insert owner table) } :
        Heap).fontNames? filled other =
        if cache = filled ∧ owner = other then some table else h.fontNames? filled other := by
    rw [fontNames?_insert, Std.HashMap.getElem?_insert]
    by_cases hfilled : cache = filled
    · subst hfilled
      by_cases hother : owner = other
      · simp [hother]
      · simp [hother, fontNames?_of_tables htables]
    · simp [hfilled]
  have hknown : tables.contains owner = true ↔ h.fontNames? cache owner ≠ none := by
    rw [fontNames?_of_tables htables, Std.HashMap.contains_eq_isSome_getElem?]
    exact Option.isSome_iff_ne_none
  unfold rememberFont
  rw [htables]
  dsimp only
  by_cases hcontains : tables.contains owner = true
  · rw [if_pos hcontains]
    exact ⟨h.objects, _, rfl, fun other => by simp [held?, hknown.mp hcontains], hmem, hnames⟩
  · rw [if_neg hcontains]
    have hnone : h.fontNames? cache owner = none := not_not.mp (mt hknown.mpr hcontains)
    have hremembered : ({ h with caches := h.caches.insert cache (tables.insert owner table) } :
        Heap).held? owner = some (count, hooks) := hheld
    obtain ⟨objects, hrun, hafter⟩ := onDrop_of_held hremembered (.evict cache)
    refine ⟨objects, _, hrun, fun other => ?_, hmem, hnames⟩
    have hobject := hafter other
    simp only [hnone, and_true]
    exact hobject

/-! ### Hooks that run -/

theorem log_runHooks (h : Heap) (id : ObjectId) (hooks : List Hook) :
    (hooks.foldl (runHook id) h).log = h.log ++ (hooks.filterMap Hook.tag?).map (⟨id, ·⟩) := by
  induction hooks generalizing h with
  | nil => exact (List.append_nil _).symm
  | cons hook hooks ih =>
    rw [List.foldl_cons, ih]
    cases hook with
    | record tag => simp [runHook, Hook.tag?]
    | evict cache =>
      have hlog : (runHook id h (.evict cache)).log = h.log := by
        simp only [runHook]
        split <;> rfl
      rw [hlog]
      rfl

/-- A hook leaves the caches that there are, and forgets the names of its object in one of them. -/
theorem caches_runHook (h : Heap) (id : ObjectId) (hook : Hook) :
    (runHook id h hook).nextCache = h.nextCache ∧
    (∀ cache, cache ∈ (runHook id h hook).caches ↔ cache ∈ h.caches) ∧
    ∀ cache owner, (runHook id h hook).fontNames? cache owner =
      if owner = id ∧ hook = .evict cache then none else h.fontNames? cache owner := by
  cases hook with
  | record tag =>
    exact ⟨rfl, fun _ => Iff.rfl, fun _ _ => by simp [runHook, fontNames?, cacheTables]⟩
  | evict evicted =>
    simp only [runHook]
    cases htables : h.caches[evicted]? with
    | none =>
      refine ⟨rfl, fun _ => Iff.rfl, fun cache owner => ?_⟩
      dsimp only
      split
      · rename_i hevicted
        obtain ⟨-, hsame⟩ := hevicted
        cases hsame
        simp [fontNames?, cacheTables, Std.HashMap.getD_eq_getD_getElem?, htables]
      · rfl
    | some tables =>
      refine ⟨rfl, fun cache => ?_, fun cache owner => ?_⟩
      · rw [Std.HashMap.mem_insert, beq_iff_eq]
        refine or_iff_right_of_imp ?_
        rintro rfl
        exact Std.HashMap.mem_iff_isSome_getElem?.mpr (by rw [htables]; rfl)
      · by_cases hcache : evicted = cache
        · subst hcache
          by_cases howner : owner = id
          · subst howner
            simp [fontNames?, cacheTables]
          · simp [fontNames?, cacheTables, Std.HashMap.getD_eq_getD_getElem?, htables,
              Std.HashMap.getElem?_erase, howner, Ne.symm howner]
        · simp [fontNames?, cacheTables, Std.HashMap.getD_insert, hcache]

theorem caches_runHooks (h : Heap) (id : ObjectId) (hooks : List Hook) :
    (hooks.foldl (runHook id) h).nextCache = h.nextCache ∧
    (∀ cache, cache ∈ (hooks.foldl (runHook id) h).caches ↔ cache ∈ h.caches) ∧
    ∀ cache owner, (hooks.foldl (runHook id) h).fontNames? cache owner =
      if owner = id ∧ .evict cache ∈ hooks then none else h.fontNames? cache owner := by
  induction hooks generalizing h with
  | nil => exact ⟨rfl, fun _ => Iff.rfl, fun _ _ => by simp⟩
  | cons hook hooks ih =>
    obtain ⟨hnext, hmem, hnames⟩ := caches_runHook h id hook
    obtain ⟨hnext', hmem', hnames'⟩ := ih (runHook id h hook)
    refine ⟨hnext'.trans hnext, fun cache => (hmem' cache).trans (hmem cache),
      fun cache owner => ?_⟩
    rw [List.foldl_cons, hnames', hnames]
    by_cases howner : owner = id
    · by_cases hhook : hook = .evict cache
      · simp [howner, hhook]
      · simp [howner, hhook, Ne.symm hhook]
    · simp [howner]

/-! ### Handles that are dropped -/

/-- A handle that is not the last one can be dropped without effect on anything else. -/
theorem release_of_lt (hheld : h.held? id = some (count, hooks)) (hcount : 1 < count) :
    ∃ objects, h.release id = { h with objects } ∧ ∀ other,
      ({ h with objects } : Heap).held? other =
        if id = other then some (count - 1, hooks) else h.held? other := by
  obtain ⟨o, hobject, rfl, rfl⟩ := held?_eq_some.mp hheld
  refine ⟨h.objects.insert id { o with handles := o.handles - 1 }, ?_, map_getElem?_insert _⟩
  unfold release
  rw [hobject]
  exact if_pos hcount

/-- With the last handle the hooks of an object run, after the object is gone. -/
theorem release_of_last (hheld : h.held? id = some (1, hooks)) :
    h.release id = hooks.foldl (runHook id) { h with objects := h.objects.erase id } := by
  obtain ⟨o, hobject, hcount, rfl⟩ := held?_eq_some.mp hheld
  unfold release
  rw [hobject]
  exact if_neg (by rw [hcount]; decide)

theorem held?_erase (h : Heap) (id other : ObjectId) :
    ({ h with objects := h.objects.erase id } : Heap).held? other =
      if id = other then none else h.held? other := by
  simp only [held?, Std.HashMap.getElem?_erase, beq_iff_eq]
  split <;> rfl

end Heap

/-- A step of a program with objects and caches of font names. Identities are numbered in the order
in which they are given. -/
inductive LifeStep where
  | create (className : String)
  | clone (id : ObjectId)
  | drop (id : ObjectId)
  | onDrop (id : ObjectId) (tag : String)
  | createCache
  | dropCache (cache : CacheId)
  | insert (cache : CacheId) (owner : ObjectId) (table : NameTable)
deriving DecidableEq

/-- The heap after a step. -/
def LifeStep.run (h : Heap) : LifeStep → Heap
  | .create className => (h.create className).2
  | .clone id => h.retain id
  | .drop id => h.release id
  | .onDrop id tag => h.onDrop id (.record tag)
  | .createCache => h.createCache.2
  | .dropCache cache => h.dropCache cache
  | .insert cache owner table => h.rememberFont cache owner table

/-- The steps up to some point, the latest first. -/
abbrev History := List LifeStep

namespace History

variable {past : History} {id owner : ObjectId} {cache : CacheId}

/-- The heap that a history leaves. -/
def heap : History → Heap
  | [] => .empty
  | step :: past => step.run (heap past)

/-! ### What was done -/

/-- The number of objects that were created. -/
def created : History → Nat
  | [] => 0
  | .create _ :: past => created past + 1
  | _ :: past => created past

/-- The number of caches that were created. -/
def opened : History → Nat
  | [] => 0
  | .createCache :: past => opened past + 1
  | _ :: past => opened past

/-- The number of handles to an object that were not dropped. -/
def handles (id : ObjectId) : History → Nat
  | [] => 0
  | .create _ :: past => if id.number = created past then 1 else handles id past
  | .clone other :: past => if other = id then handles id past + 1 else handles id past
  | .drop other :: past => if other = id then handles id past - 1 else handles id past
  | _ :: past => handles id past

/-- The tags of the hooks that the program registered on an object, in order. -/
def tags (id : ObjectId) : History → List String
  | [] => []
  | .onDrop other tag :: past => if other = id then tags id past ++ [tag] else tags id past
  | _ :: past => tags id past

/-- The cache was created and not dropped. -/
def Open (cache : CacheId) : History → Prop
  | [] => False
  | .createCache :: past => cache.number = opened past ∨ Open cache past
  | .dropCache dropped :: past => dropped ≠ cache ∧ Open cache past
  | _ :: past => Open cache past

/-- The font names of an object that were inserted last. -/
def lastInserted (cache : CacheId) (owner : ObjectId) : History → Option NameTable
  | [] => none
  | .insert filled other table :: past =>
    if filled = cache ∧ other = owner then some table else lastInserted cache owner past
  | _ :: past => lastInserted cache owner past

/-- All hooks of an object in order. The first font names that go into a cache register the hook
that forgets them. -/
def hooks (id : ObjectId) : History → List Hook
  | [] => []
  | .onDrop other tag :: past =>
    if other = id then hooks id past ++ [.record tag] else hooks id past
  | .insert cache owner _ :: past =>
    if owner = id ∧ lastInserted cache id past = none then hooks id past ++ [.evict cache]
    else hooks id past
  | _ :: past => hooks id past

/-- What the hooks of an object note in the log when they run. -/
def noted (id : ObjectId) (past : History) : List LogEntry := (tags id past).map (⟨id, ·⟩)

/-- What a step adds to the log. Hooks run at the step that drops the last handle. -/
def ran (past : History) : LifeStep → List LogEntry
  | .drop id => if handles id past = 1 then noted id past else []
  | _ => []

/-- All that hooks noted in the log. -/
def deaths : History → List LogEntry
  | [] => []
  | step :: past => deaths past ++ ran past step

/-- A step can only use handles and caches that are there. -/
def Allows (past : History) : LifeStep → Prop
  | .create _ => True
  | .clone id => 0 < handles id past
  | .drop id => 0 < handles id past
  | .onDrop id _ => 0 < handles id past
  | .createCache => True
  | .dropCache cache => Open cache past
  | .insert cache owner _ => Open cache past ∧ 0 < handles owner past

/-- Every step was allowed when it was made. -/
def Legal : History → Prop
  | [] => True
  | step :: past => Allows past step ∧ Legal past

instance decidableOpen (cache : CacheId) : DecidablePred (Open cache)
  | [] => .isFalse not_false
  | .createCache :: past =>
    have := decidableOpen cache past
    inferInstanceAs (Decidable (cache.number = opened past ∨ Open cache past))
  | .dropCache dropped :: past =>
    have := decidableOpen cache past
    inferInstanceAs (Decidable (dropped ≠ cache ∧ Open cache past))
  | .create _ :: past => decidableOpen cache past
  | .clone _ :: past => decidableOpen cache past
  | .drop _ :: past => decidableOpen cache past
  | .onDrop _ _ :: past => decidableOpen cache past
  | .insert _ _ _ :: past => decidableOpen cache past

instance decidableAllows (past : History) : DecidablePred (Allows past)
  | .create _ => .isTrue trivial
  | .clone id => inferInstanceAs (Decidable (0 < handles id past))
  | .drop id => inferInstanceAs (Decidable (0 < handles id past))
  | .onDrop id _ => inferInstanceAs (Decidable (0 < handles id past))
  | .createCache => .isTrue trivial
  | .dropCache cache => inferInstanceAs (Decidable (Open cache past))
  | .insert cache owner _ => inferInstanceAs (Decidable (Open cache past ∧ 0 < handles owner past))

instance decidableLegal : DecidablePred Legal
  | [] => .isTrue trivial
  | step :: past =>
    have := decidableLegal past
    inferInstanceAs (Decidable (Allows past step ∧ Legal past))

/-! ### Identities that were not given yet -/

/-- Nothing is known of an object that was not created. -/
theorem fresh_object (hlegal : Legal past) (hid : created past ≤ id.number) :
    handles id past = 0 ∧ hooks id past = [] ∧ tags id past = [] ∧
      ∀ cache, lastInserted cache id past = none := by
  induction past with
  | nil => exact ⟨rfl, rfl, rfl, fun _ => rfl⟩
  | cons step past ih =>
    obtain ⟨hstep, hlegal⟩ := hlegal
    have hpast : created past ≤ id.number := by
      cases step <;> first | exact hid | exact Nat.le_of_succ_le hid
    have hfresh := ih hlegal hpast
    -- a step that was allowed used another object
    have hother {other : ObjectId} (h : 0 < handles other past) : other ≠ id := by
      rintro rfl
      exact absurd hfresh.1 h.ne'
    cases step with
    | create className =>
      have hne : id.number ≠ created past := (Nat.lt_of_succ_le hid).ne'
      simpa [handles, hooks, tags, lastInserted, hne] using hfresh
    | clone other => simpa [handles, hooks, tags, lastInserted, hother hstep] using hfresh
    | drop other => simpa [handles, hooks, tags, lastInserted, hother hstep] using hfresh
    | onDrop other tag => simpa [handles, hooks, tags, lastInserted, hother hstep] using hfresh
    | createCache => exact hfresh
    | dropCache cache => exact hfresh
    | insert cache owner table =>
      simpa [handles, hooks, tags, lastInserted, hother hstep.2] using hfresh

/-- Nothing is known of a cache that was not created. -/
theorem fresh_cache (hlegal : Legal past) (hcache : opened past ≤ cache.number) :
    ¬Open cache past ∧ ∀ owner, lastInserted cache owner past = none := by
  induction past with
  | nil => exact ⟨id, fun _ => rfl⟩
  | cons step past ih =>
    obtain ⟨hstep, hlegal⟩ := hlegal
    have hpast : opened past ≤ cache.number := by
      cases step <;> first | exact hcache | exact Nat.le_of_succ_le hcache
    have hfresh := ih hlegal hpast
    cases step with
    | createCache =>
      have hne : cache.number ≠ opened past := (Nat.lt_of_succ_le hcache).ne'
      simpa [Open, lastInserted, hne] using hfresh
    | dropCache dropped => exact ⟨fun hopen => hfresh.1 hopen.2, hfresh.2⟩
    | insert filled owner table =>
      have hne : filled ≠ cache := by
        rintro rfl
        exact hfresh.1 hstep.1
      simpa [Open, lastInserted, hne] using hfresh
    | _ => exact hfresh

/-! ### Hooks of both kinds -/

theorem filterMap_hooks (id : ObjectId) (past : History) :
    (hooks id past).filterMap Hook.tag? = tags id past := by
  induction past with
  | nil => rfl
  | cons step past ih =>
    cases step with
    | onDrop other tag =>
      rw [hooks, tags]
      split
      · rw [List.filterMap_append, ih]
        rfl
      · exact ih
    | insert cache owner table =>
      show _ = tags id past
      rw [hooks]
      split
      · rw [List.filterMap_append, ih]
        exact List.append_nil _
      · exact ih
    | _ => exact ih

/-- A cache that has got font names of an object is named by one hook of the object. -/
theorem count_hooks (cache : CacheId) (id : ObjectId) (past : History) :
    (hooks id past).count (.evict cache) = if lastInserted cache id past = none then 0 else 1 := by
  induction past with
  | nil => rfl
  | cons step past ih =>
    cases step with
    | onDrop other tag =>
      show _ = if lastInserted cache id past = none then 0 else 1
      rw [hooks]
      split
      · rw [List.count_append, ih]
        rfl
      · exact ih
    | insert filled owner table =>
      rw [hooks, lastInserted]
      by_cases howner : owner = id
      · subst howner
        by_cases hcache : filled = cache
        · subst hcache
          by_cases hnone : lastInserted filled owner past = none
          · simp [hnone, ih]
          · simp [hnone, ih]
        · by_cases hnone : lastInserted filled owner past = none
          · simp [hnone, hcache, ih]
          · simp [hnone, hcache, ih]
      · simp [howner, ih]
    | _ => exact ih

theorem evict_mem_hooks : .evict cache ∈ hooks id past ↔ lastInserted cache id past ≠ none := by
  rw [← List.count_pos_iff, count_hooks]
  split <;> simp_all

/-! ## What the heap holds -/

/-- The heap holds what its history tells. -/
structure Agrees (past : History) (h : Heap) : Prop where
  nextObject : h.nextObject = created past
  nextCache : h.nextCache = opened past
  /-- An object lives with all its handles and hooks as long as there is a handle. -/
  held? : ∀ id, h.held? id =
    if 0 < handles id past then some (handles id past, hooks id past) else none
  caches : ∀ cache, cache ∈ h.caches ↔ Open cache past
  /-- The names of an object are those inserted last, as long as it lives. -/
  fontNames? : ∀ cache, Open cache past → ∀ owner, h.fontNames? cache owner =
    if 0 < handles owner past then lastInserted cache owner past else none
  log : h.log = deaths past

namespace Agrees

variable {h : Heap}

theorem empty : Agrees [] .empty where
  nextObject := rfl
  nextCache := rfl
  held? id := by simp [Heap.held?, Heap.empty, handles]
  caches cache := by simp [Heap.empty, Open]
  fontNames? cache hopen := hopen.elim
  log := rfl

theorem held (hagrees : Agrees past h) (hid : 0 < handles id past) :
    h.held? id = some (handles id past, hooks id past) := by
  rw [hagrees.held?, if_pos hid]

/-- A step that changes the handles or hooks of one object only, which lives on. -/
theorem withObject {step : LifeStep} (hagrees : Agrees past h)
    {objects : Std.HashMap ObjectId HostObject} {count : Nat} {kept : List Hook}
    (hheld : ∀ other, ({ h with objects } : Heap).held? other =
      if id = other then some (count, kept) else h.held? other)
    (hid : 0 < handles id past) (hcount : 0 < count) (hhandles : handles id (step :: past) = count)
    (hhooks : hooks id (step :: past) = kept)
    (hothers : ∀ other, id ≠ other → handles other (step :: past) = handles other past ∧
      hooks other (step :: past) = hooks other past)
    (hcreated : created (step :: past) = created past)
    (hopened : opened (step :: past) = opened past)
    (hopen : ∀ cache, Open cache (step :: past) ↔ Open cache past)
    (hlast : ∀ cache owner, lastInserted cache owner (step :: past) = lastInserted cache owner past)
    (hran : ran past step = []) : Agrees (step :: past) { h with objects } where
  nextObject := hagrees.nextObject.trans hcreated.symm
  nextCache := hagrees.nextCache.trans hopened.symm
  held? other := by
    rw [hheld]
    by_cases hsame : id = other
    · subst hsame
      rw [if_pos rfl, hhandles, hhooks, if_pos hcount]
    · obtain ⟨hhandles, hhooks⟩ := hothers other hsame
      rw [if_neg hsame, hhandles, hhooks, hagrees.held?]
  caches cache := (hagrees.caches cache).trans (hopen cache).symm
  fontNames? cache hcache owner := by
    have hnames := hagrees.fontNames? cache ((hopen cache).mp hcache) owner
    rw [hlast]
    by_cases hsame : id = owner
    · subst hsame
      -- the object lived before the step and lives after it
      rw [if_pos hid] at hnames
      rw [hhandles, if_pos hcount]
      exact hnames
    · rw [(hothers owner hsame).1]
      exact hnames
  log := by rw [deaths, hran, List.append_nil]; exact hagrees.log

theorem create (hagrees : Agrees past h) (hlegal : Legal past) (className : String) :
    Agrees (.create className :: past) (h.create className).2 where
  nextObject := congrArg (· + 1) hagrees.nextObject
  nextCache := hagrees.nextCache
  held? id := by
    show _ = if 0 < (if id.number = created past then 1 else handles id past) then
      some (if id.number = created past then 1 else handles id past, hooks id past) else none
    rw [Heap.held?_create, hagrees.nextObject]
    by_cases hnew : id.number = created past
    · obtain ⟨-, hhooks, -⟩ := fresh_object hlegal hnew.ge
      rw [if_pos (by rw [← hnew]), if_pos hnew, if_pos Nat.one_pos, hhooks]
    · rw [if_neg (by rintro rfl; exact hnew rfl), if_neg hnew, hagrees.held?]
  caches := hagrees.caches
  fontNames? cache hcache owner := by
    show _ = if 0 < (if owner.number = created past then 1 else handles owner past) then
      lastInserted cache owner past else none
    refine (hagrees.fontNames? cache hcache owner).trans ?_
    by_cases hnew : owner.number = created past
    · obtain ⟨hhandles, -, -, hnames⟩ := fresh_object hlegal hnew.ge
      rw [if_pos hnew, if_pos Nat.one_pos, hhandles, if_neg (Nat.lt_irrefl 0), hnames]
    · rw [if_neg hnew]
  log := hagrees.log.trans (List.append_nil _).symm

theorem clone (hagrees : Agrees past h) (hid : 0 < handles id past) :
    Agrees (.clone id :: past) (h.retain id) := by
  obtain ⟨objects, hrun, hheld⟩ := Heap.retain_of_held (hagrees.held hid)
  rw [hrun]
  exact hagrees.withObject hheld hid (Nat.succ_pos _) (if_pos rfl) rfl
    (fun other hne => ⟨if_neg hne, rfl⟩) rfl rfl (fun _ => Iff.rfl) (fun _ _ => rfl) rfl

theorem onDrop (hagrees : Agrees past h) (hid : 0 < handles id past) (tag : String) :
    Agrees (.onDrop id tag :: past) (h.onDrop id (.record tag)) := by
  obtain ⟨objects, hrun, hheld⟩ := Heap.onDrop_of_held (hagrees.held hid) (.record tag)
  rw [hrun]
  exact hagrees.withObject hheld hid hid rfl (if_pos rfl)
    (fun other hne => ⟨rfl, if_neg hne⟩) rfl rfl (fun _ => Iff.rfl) (fun _ _ => rfl) rfl

/-- A handle that is not the last one is dropped. -/
theorem dropOne (hagrees : Agrees past h) (hid : 1 < handles id past) :
    Agrees (.drop id :: past) (h.release id) := by
  have hpos : 0 < handles id past := Nat.zero_lt_of_lt hid
  obtain ⟨objects, hrun, hheld⟩ := Heap.release_of_lt (hagrees.held hpos) hid
  rw [hrun]
  exact hagrees.withObject hheld hpos (Nat.sub_pos_of_lt hid) (if_pos rfl) rfl
    (fun other hne => ⟨if_neg hne, rfl⟩) rfl rfl (fun _ => Iff.rfl) (fun _ _ => rfl)
    (if_neg hid.ne')

theorem release_last (hagrees : Agrees past h) (hid : handles id past = 1) :
    h.release id =
      (hooks id past).foldl (Heap.runHook id) { h with objects := h.objects.erase id } := by
  have hheld := hagrees.held (by rw [hid]; exact Nat.one_pos)
  rw [hid] at hheld
  exact Heap.release_of_last hheld

/-- The last handle is dropped, and the hooks run. Each cache that has names of the object is named
by one of the hooks. -/
theorem dropLast (hagrees : Agrees past h) (hid : handles id past = 1) :
    Agrees (.drop id :: past) (h.release id) := by
  rw [hagrees.release_last hid]
  obtain ⟨hobjects, hnextObject⟩ :=
    Heap.runHooks_objects { h with objects := h.objects.erase id } id (hooks id past)
  obtain ⟨hnextCache, hcaches, hnames⟩ :=
    Heap.caches_runHooks { h with objects := h.objects.erase id } id (hooks id past)
  have hlog := Heap.log_runHooks { h with objects := h.objects.erase id } id (hooks id past)
  constructor
  · exact hnextObject.trans hagrees.nextObject
  · exact hnextCache.trans hagrees.nextCache
  · intro other
    show _ = if 0 < (if id = other then handles other past - 1 else handles other past) then
      some (if id = other then handles other past - 1 else handles other past, hooks other past)
      else none
    have herased := Heap.held?_erase h id other
    rw [Heap.held?] at herased ⊢
    rw [hobjects, herased]
    by_cases hsame : id = other
    · subst hsame
      simp [hid]
    · simp [hsame, hagrees.held?]
  · exact fun cache => (hcaches cache).trans (hagrees.caches cache)
  · intro cache hcache other
    show _ = if 0 < (if id = other then handles other past - 1 else handles other past) then
      lastInserted cache other past else none
    have hold : ({ h with objects := h.objects.erase id } : Heap).fontNames? cache other = _ :=
      hagrees.fontNames? cache hcache other
    rw [hnames, hold]
    by_cases hsame : id = other
    · subst hsame
      -- names that were inserted have registered a hook, which has run
      by_cases hnone : lastInserted cache id past = none
      · simp [hid, hnone]
      · simp [hid, evict_mem_hooks.mpr hnone]
    · simp [hsame, Ne.symm hsame]
  · rw [hlog, filterMap_hooks, deaths, ran, if_pos hid]
    exact congrArg (· ++ _) hagrees.log

theorem createCache (hagrees : Agrees past h) (hlegal : Legal past) :
    Agrees (.createCache :: past) h.createCache.2 where
  nextObject := hagrees.nextObject
  nextCache := congrArg (· + 1) hagrees.nextCache
  held? := hagrees.held?
  caches cache := by
    rw [Heap.createCache, Std.HashMap.mem_insert, beq_iff_eq, hagrees.nextCache, hagrees.caches,
      Open]
    refine or_congr_left ⟨fun h => by rw [← h], fun h => by rw [← h]⟩
  fontNames? cache hcache owner := by
    show _ = if 0 < handles owner past then lastInserted cache owner past else none
    have hinsert : h.createCache.2.fontNames? cache owner = _ :=
      Heap.fontNames?_insert ∅ cache owner
    rw [hinsert, hagrees.nextCache]
    by_cases hnew : cache.number = opened past
    · rw [if_pos (by rw [← hnew]), (fresh_cache hlegal hnew.ge).2 owner]
      simp
    · rw [if_neg (by rintro rfl; exact hnew rfl)]
      exact hagrees.fontNames? cache (hcache.resolve_left hnew) owner
  log := hagrees.log.trans (List.append_nil _).symm

theorem dropCache (hagrees : Agrees past h) (cache : CacheId) :
    Agrees (.dropCache cache :: past) (h.dropCache cache) where
  nextObject := hagrees.nextObject
  nextCache := hagrees.nextCache
  held? := hagrees.held?
  caches other := by
    rw [Heap.dropCache, Std.HashMap.mem_erase, hagrees.caches, Open]
    simp
  fontNames? other hother owner := by
    refine Eq.trans ?_ (hagrees.fontNames? other hother.2 owner)
    rw [Heap.fontNames?, Heap.cacheTables, Heap.dropCache, Std.HashMap.getD_erase,
      if_neg (by simpa using hother.1)]
    rfl
  log := hagrees.log.trans (List.append_nil _).symm

theorem insert (hagrees : Agrees past h) (hcache : Open cache past)
    (howner : 0 < handles owner past) (table : NameTable) :
    Agrees (.insert cache owner table :: past) (h.rememberFont cache owner table) := by
  obtain ⟨objects, caches, hrun, hheld, hmem, hnames⟩ :=
    Heap.rememberFont_of_held ((hagrees.caches cache).mpr hcache) (hagrees.held howner) table
  -- the owner lives, so it has names in the cache exactly if it was given any
  have hknown := hagrees.fontNames? cache hcache owner
  rw [if_pos howner] at hknown
  rw [hrun]
  constructor
  · exact hagrees.nextObject
  · exact hagrees.nextCache
  · intro other
    show _ = if 0 < handles other past then some (handles other past,
      if owner = other ∧ lastInserted cache other past = none then
        hooks other past ++ [.evict cache]
      else hooks other past) else none
    rw [hheld, hknown]
    by_cases hsame : owner = other
    · subst hsame
      by_cases hnone : lastInserted cache owner past = none
      · simp [hnone, howner]
      · simp [hnone, hagrees.held?]
    · simp [hsame, hagrees.held?]
  · exact fun other => (hmem other).trans (hagrees.caches other)
  · intro filled hfilled other
    show _ = if 0 < handles other past then if cache = filled ∧ owner = other then some table
      else lastInserted filled other past else none
    rw [hnames, hagrees.fontNames? filled hfilled other]
    by_cases hboth : cache = filled ∧ owner = other
    · obtain ⟨rfl, rfl⟩ := hboth
      simp [howner]
    · simp [hboth]
  · exact hagrees.log.trans (List.append_nil _).symm

/-- An allowed step keeps heap and history in agreement. -/
theorem run (hagrees : Agrees past h) (hlegal : Legal past) {step : LifeStep}
    (hstep : Allows past step) : Agrees (step :: past) (step.run h) := by
  cases step with
  | create className => exact hagrees.create hlegal className
  | clone id => exact hagrees.clone hstep
  | drop id =>
    rcases Nat.lt_or_eq_of_le (Nat.succ_le_of_lt hstep) with hmany | hlast
    · exact hagrees.dropOne hmany
    · exact hagrees.dropLast hlast.symm
  | onDrop id tag => exact hagrees.onDrop hstep tag
  | createCache => exact hagrees.createCache hlegal
  | dropCache cache => exact hagrees.dropCache cache
  | insert cache owner table => exact hagrees.insert hstep.1 hstep.2 table

end Agrees

/-- The heap agrees with its history. -/
theorem Legal.agrees (hlegal : Legal past) : Agrees past past.heap := by
  induction past with
  | nil => exact Agrees.empty
  | cons step past ih => exact (ih hlegal.2).run hlegal.2 hlegal.1

/-- With its last handle an object goes, and its hooks run one after the other as they were
registered, those of the program and the evictions of its font names alike. -/
theorem Legal.heap_drop_last (hlegal : Legal past) (hid : handles id past = 1) :
    heap (.drop id :: past) = (hooks id past).foldl (Heap.runHook id)
      { past.heap with objects := past.heap.objects.erase id } :=
  hlegal.agrees.release_last hid

theorem filter_noted (id other : ObjectId) (past : History) :
    (noted other past).filter (·.object = id) = if other = id then noted id past else [] := by
  split
  · rename_i hsame
    subst hsame
    exact List.filter_eq_self.mpr (by simp [noted])
  · rename_i hother
    exact List.filter_eq_nil_iff.mpr (by simpa [noted] using fun _ _ => hother)

/-- The log has nothing of an object while it lives, and all tags of its hooks when it is dead. -/
theorem filter_deaths (hlegal : Legal past) (id : ObjectId) :
    (deaths past).filter (·.object = id) =
      if 0 < handles id past then [] else noted id past := by
  induction past with
  | nil => rfl
  | cons step past ih =>
    obtain ⟨hstep, hlegal⟩ := hlegal
    rw [deaths, List.filter_append, ih hlegal]
    cases step with
    | create className =>
      show _ ++ [] = if 0 < (if id.number = created past then 1 else handles id past) then []
        else noted id past
      rw [List.append_nil]
      by_cases hnew : id.number = created past
      · obtain ⟨hhandles, -, htags, -⟩ := fresh_object hlegal hnew.ge
        simp [noted, htags]
      · rw [if_neg hnew]
    | clone other =>
      show _ ++ [] = if 0 < (if other = id then handles id past + 1 else handles id past) then []
        else noted id past
      rw [List.append_nil]
      by_cases hsame : other = id
      · subst hsame
        have halive : 0 < handles other past := hstep
        simp [halive]
      · rw [if_neg hsame]
    | drop other =>
      show _ ++ (if handles other past = 1 then noted other past else []).filter _ =
        if 0 < (if other = id then handles id past - 1 else handles id past) then []
        else noted id past
      by_cases hsame : other = id
      · subst hsame
        have halive : 0 < handles other past := hstep
        rw [if_pos rfl, if_pos halive, List.nil_append]
        -- only the last handle takes the object with it
        rcases Nat.lt_or_eq_of_le (Nat.succ_le_of_lt halive) with hmany | hlast
        · rw [if_neg hmany.ne', if_pos (Nat.sub_pos_of_lt hmany), List.filter_nil]
        · rw [if_pos hlast.symm, filter_noted, if_pos rfl, ← hlast]
          rfl
      · rw [if_neg hsame]
        split
        all_goals split <;> simp [filter_noted, hsame]
    | onDrop other tag =>
      show _ ++ [] = if 0 < handles id past then []
        else noted id (.onDrop other tag :: past)
      rw [List.append_nil]
      by_cases hsame : other = id
      · subst hsame
        have halive : 0 < handles other past := hstep
        rw [if_pos halive, if_pos halive]
      · rw [noted, noted, tags, if_neg hsame]
    | _ => exact List.append_nil _

/-- At every point of a legal history: an object lives exactly as long as there are handles to it. A
cache has the names of an object exactly while the object lives and after they were inserted, and
they are those inserted last. A living object has the hooks that were registered on it, in order,
and one for each cache that has its names. The next step runs the hooks of an object, with its
identity and in order, if it drops the last handle to the object, and no others. So each hook of a
dead object has run once, and none of a living one. The log shows the hooks that the program
registered. Where among them an eviction has its turn is left to `Legal.heap_drop_last`. -/
theorem Legal.lifetimes (hlegal : Legal past) :
    (∀ id, past.heap.Live id ↔ 0 < handles id past) ∧
    (∀ cache, Open cache past → ∀ owner, past.heap.fontNames? cache owner =
      if 0 < handles owner past then lastInserted cache owner past else none) ∧
    (∀ id o, past.heap.objects[id]? = some o → o.handles = handles id past ∧
      o.hooks.filterMap Hook.tag? = tags id past ∧
      ∀ cache, o.hooks.count (.evict cache) = if lastInserted cache id past = none then 0 else 1) ∧
    (∀ step, Allows past step → (heap (step :: past)).log = past.heap.log ++ ran past step) ∧
    ∀ id, past.heap.log.filter (·.object = id) =
      if 0 < handles id past then [] else noted id past := by
  have hagrees := hlegal.agrees
  refine ⟨fun id => ?_, hagrees.fontNames?, fun id o hobject => ?_, fun step hstep => ?_,
    fun id => ?_⟩
  · rw [Heap.live_iff_held?, hagrees.held?]
    by_cases hid : 0 < handles id past
    · simp [hid]
    · simp [hid]
  · have hheld := hagrees.held? id
    rw [Heap.held?_eq_some.mpr ⟨o, hobject, rfl, rfl⟩] at hheld
    split at hheld
    · obtain ⟨hhandles, hhooks⟩ := Prod.mk.inj (Option.some.inj hheld)
      rw [hhooks]
      exact ⟨hhandles, filterMap_hooks id past, fun cache => count_hooks cache id past⟩
    · cases hheld
  · have hlater : Legal (step :: past) := ⟨hstep, hlegal⟩
    rw [hlater.agrees.log, hagrees.log, deaths]
  · rw [hagrees.log]
    exact filter_deaths hlegal id

/-- A table with one name, a single letter. -/
def letterTable (letter : UInt8) : NameTable := ⟨[⟨⟨1, 0, 0, 1⟩, [letter]⟩]⟩

/-- Two objects share a cache that is dropped. The first of them has names in another cache as well,
where they were replaced, and one of its two handles was dropped. -/
def replacedNames : History :=
  List.reverse [.create "org/lwjgl/stb/STBTTFontinfo", .createCache, .createCache,
    .onDrop ⟨0⟩ "first", .insert ⟨0⟩ ⟨0⟩ (letterTable 65), .clone ⟨0⟩,
    .insert ⟨1⟩ ⟨0⟩ (letterTable 66), .create "org/lwjgl/stb/STBTTFontinfo",
    .insert ⟨0⟩ ⟨0⟩ (letterTable 67), .onDrop ⟨0⟩ "second", .insert ⟨1⟩ ⟨1⟩ (letterTable 68),
    .onDrop ⟨1⟩ "other", .dropCache ⟨1⟩, .drop ⟨0⟩]

theorem Legal.lifetimes_replacedNames : Legal (.drop ⟨0⟩ :: replacedNames) ∧
    replacedNames.heap.Live ⟨0⟩ ∧
    replacedNames.heap.fontNames? ⟨0⟩ ⟨0⟩ = some (letterTable 67) ∧
    (heap (.drop ⟨0⟩ :: replacedNames)).fontNames? ⟨0⟩ ⟨0⟩ = none ∧
    (heap (.drop ⟨0⟩ :: replacedNames)).log =
      replacedNames.heap.log ++ [⟨⟨0⟩, "first"⟩, ⟨⟨0⟩, "second"⟩] ∧
    (heap (.drop ⟨0⟩ :: replacedNames)).log.filter (·.object = ⟨0⟩) =
      [⟨⟨0⟩, "first"⟩, ⟨⟨0⟩, "second"⟩] := by
  have hbefore : Legal replacedNames := by decide
  have hafter : Legal (.drop ⟨0⟩ :: replacedNames) := by decide
  obtain ⟨hlive, hnames, -, hstep, -⟩ := Legal.lifetimes hbefore
  obtain ⟨-, hnames', -, -, hlog⟩ := Legal.lifetimes hafter
  exact ⟨hafter, (hlive ⟨0⟩).mpr (by decide), (hnames ⟨0⟩ (by decide) ⟨0⟩).trans (by decide),
    (hnames' ⟨0⟩ (by decide) ⟨0⟩).trans (by decide), hstep (.drop ⟨0⟩) (by decide),
    (hlog ⟨0⟩).trans (by decide)⟩

end History

end ClassPatch.Host
