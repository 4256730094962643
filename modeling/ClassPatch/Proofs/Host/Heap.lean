import Mathlib
import ClassPatch.Host.Heap

/-!
# Objects and what is remembered about them

Which steps over the heap touch the font names of an object. Identities are handed out once, so an
object that died stays dead, and the names of all others are in the hands of the one step that
remembers fonts.
-/

namespace ClassPatch.Host.Heap

open Font (NameTable)

variable {h h' h'' : Heap} {cache : CacheId} {id owner : ObjectId}

/-- There are handles to the object. -/
def Live (h : Heap) (id : ObjectId) : Prop := id ∈ h.objects

/-- Only objects that were created live. -/
def Allocated (h : Heap) : Prop := ∀ id, h.Live id → id.number < h.nextObject

theorem allocated_empty : empty.Allocated := by
  intro id hid
  cases Std.HashMap.not_mem_empty hid

/-- The object was created and has died. -/
def Dead (h : Heap) (id : ObjectId) : Prop := id.number < h.nextObject ∧ ¬h.Live id

theorem Live.not_dead (hlive : h.Live id) : ¬h.Dead id := fun hdead => hdead.2 hlive

/-! ## Steps that remember no fonts -/

/-- Nobody comes back to life, and the cache keeps the names of all objects but those that are dead
by now. -/
structure Spares (cache : CacheId) (h h' : Heap) : Prop where
  allocated : h'.Allocated
  dead : ∀ id, h.Dead id → h'.Dead id
  mem : cache ∈ h.caches → cache ∈ h'.caches
  fontNames? : ∀ id, ¬h'.Dead id → h'.fontNames? cache id = h.fontNames? cache id

theorem Spares.refl (hall : h.Allocated) : h.Spares cache h :=
  ⟨hall, fun _ hdead => hdead, fun hmem => hmem, fun _ _ => rfl⟩

theorem Spares.trans (hfirst : h.Spares cache h') (hthen : h'.Spares cache h'') :
    h.Spares cache h'' where
  allocated := hthen.allocated
  dead id hdead := hthen.dead id (hfirst.dead id hdead)
  mem hmem := hthen.mem (hfirst.mem hmem)
  fontNames? id hid := by
    rw [hthen.fontNames? id hid, hfirst.fontNames? id fun hdead => hid (hthen.dead id hdead)]

/-- Steps for the members of a list, one after the other. -/
theorem spares_foldl {α : Type} {f : Heap → α → Heap}
    (hf : ∀ (h : Heap) (a : α), h.Allocated → h.Spares cache (f h a)) (hall : h.Allocated) (as : List α) :
    h.Spares cache (as.foldl f h) := by
  induction as generalizing h with
  | nil => exact .refl hall
  | cons a as ih =>
    have hstep := hf h a hall
    exact hstep.trans (ih hstep.allocated)

theorem spares_create (hall : h.Allocated) (className : String) :
    h.Spares cache (h.create className).2 where
  allocated id hid := by
    show id.number < h.nextObject + 1
    rcases Std.HashMap.mem_insert.mp hid with hnew | hold
    · obtain rfl := eq_of_beq hnew
      exact Nat.lt_succ_self h.nextObject
    · exact Nat.lt_succ_of_lt (hall id hold)
  dead id hdead := by
    refine ⟨Nat.lt_succ_of_lt hdead.1, fun hid => ?_⟩
    rcases Std.HashMap.mem_insert.mp hid with hnew | hold
    · obtain rfl := eq_of_beq hnew
      exact absurd hdead.1 (Nat.lt_irrefl _)
    · exact hdead.2 hold
  mem hmem := hmem
  fontNames? _ _ := rfl

theorem live_create (h : Heap) (className : String) :
    (h.create className).2.Live (h.create className).1 :=
  Std.HashMap.mem_insert_self

theorem Live.create (hlive : h.Live id) (className : String) : (h.create className).2.Live id :=
  Std.HashMap.mem_insert.mpr (.inr hlive)

/-- A step that changes living objects only. -/
theorem spares_of_live_iff (hall : h.Allocated) (hlive : ∀ id, h'.Live id ↔ h.Live id)
    (hnext : h'.nextObject = h.nextObject) (hcaches : h'.caches = h.caches) :
    h.Spares cache h' where
  allocated id hid := hnext ▸ hall id ((hlive id).mp hid)
  dead id hdead := ⟨hnext ▸ hdead.1, fun hid => hdead.2 ((hlive id).mp hid)⟩
  mem hmem := hcaches ▸ hmem
  fontNames? id _ := by rw [Heap.fontNames?, Heap.fontNames?, cacheTables, cacheTables, hcaches]

/-- Changing a living object gives life to no other. -/
theorem live_insert {o new : HostObject} (hobject : h.objects[id]? = some o) (other : ObjectId) :
    other ∈ h.objects.insert id new ↔ h.Live other := by
  rw [Std.HashMap.mem_insert, beq_iff_eq]
  constructor
  · intro hother
    rcases hother with rfl | hold
    · exact Std.HashMap.mem_iff_isSome_getElem?.mpr (by rw [hobject]; rfl)
    · exact hold
  · exact .inr

theorem live_retain (h : Heap) (id other : ObjectId) : (h.retain id).Live other ↔ h.Live other := by
  unfold retain
  cases hobject : h.objects[id]? with
  | none => exact Iff.rfl
  | some o => exact live_insert hobject other

theorem spares_retain (hall : h.Allocated) (id : ObjectId) : h.Spares cache (h.retain id) := by
  have hrest : (h.retain id).nextObject = h.nextObject ∧ (h.retain id).caches = h.caches := by
    unfold retain
    split <;> exact ⟨rfl, rfl⟩
  exact spares_of_live_iff hall (live_retain h id) hrest.1 hrest.2

theorem live_onDrop (h : Heap) (id other : ObjectId) (hook : Hook) :
    (h.onDrop id hook).Live other ↔ h.Live other := by
  unfold onDrop
  cases hobject : h.objects[id]? with
  | none => exact Iff.rfl
  | some o => exact live_insert hobject other

theorem spares_onDrop (hall : h.Allocated) (id : ObjectId) (hook : Hook) :
    h.Spares cache (h.onDrop id hook) := by
  have hrest : (h.onDrop id hook).nextObject = h.nextObject ∧
      (h.onDrop id hook).caches = h.caches := by
    unfold onDrop
    split <;> exact ⟨rfl, rfl⟩
  exact spares_of_live_iff hall (fun other => live_onDrop h id other hook) hrest.1 hrest.2

/-! ## Death -/

/-- Hooks leave the objects as they are. -/
theorem runHook_objects (h : Heap) (id : ObjectId) (hook : Hook) :
    (runHook id h hook).objects = h.objects ∧ (runHook id h hook).nextObject = h.nextObject := by
  cases hook with
  | record tag => exact ⟨rfl, rfl⟩
  | evict evicted =>
    simp only [runHook]
    split <;> exact ⟨rfl, rfl⟩

/-- A hook that forgets the names of an object forgets those of a dead one. -/
theorem spares_runHook (hall : h.Allocated) (hid : h.Dead id) (hook : Hook) :
    h.Spares cache (runHook id h hook) := by
  obtain ⟨hobjects, hnext⟩ := runHook_objects h id hook
  have hdead (other : ObjectId) : (runHook id h hook).Dead other ↔ h.Dead other := by
    simp only [Dead, Live, hobjects, hnext]
  constructor
  · intro other hother
    rw [Live, hobjects] at hother
    rw [hnext]
    exact hall other hother
  · exact fun other => (hdead other).mpr
  · intro hmem
    cases hook with
    | record tag => exact hmem
    | evict evicted =>
      simp only [runHook]
      split
      · exact Std.HashMap.mem_insert.mpr (.inr hmem)
      · exact hmem
  · intro other hother
    rw [hdead] at hother
    have hne : id ≠ other := fun h => hother (h ▸ hid)
    cases hook with
    | record tag => rfl
    | evict evicted =>
      simp only [runHook]
      cases htables : h.caches[evicted]? with
      | none => rfl
      | some tables =>
        by_cases hcache : evicted = cache
        · subst hcache
          simp [Heap.fontNames?, cacheTables, Std.HashMap.getD_eq_getD_getElem?, htables,
            Std.HashMap.getElem?_erase, hne]
        · simp [Heap.fontNames?, cacheTables, Std.HashMap.getD_insert, hcache]

theorem spares_runHooks (hall : h.Allocated) (hid : h.Dead id) (hooks : List Hook) :
    h.Spares cache (hooks.foldl (runHook id) h) := by
  induction hooks generalizing h with
  | nil => exact .refl hall
  | cons hook hooks ih =>
    have hstep : h.Spares cache (runHook id h hook) := spares_runHook hall hid hook
    exact hstep.trans (ih hstep.allocated (hstep.dead id hid))

/-- Hooks run in order leave the objects as they are. -/
theorem runHooks_objects (h : Heap) (id : ObjectId) (hooks : List Hook) :
    (hooks.foldl (runHook id) h).objects = h.objects ∧
      (hooks.foldl (runHook id) h).nextObject = h.nextObject := by
  induction hooks generalizing h with
  | nil => exact ⟨rfl, rfl⟩
  | cons hook hooks ih =>
    obtain ⟨hobjects, hnext⟩ := runHook_objects h id hook
    obtain ⟨hobjects', hnext'⟩ := ih (runHook id h hook)
    exact ⟨hobjects'.trans hobjects, hnext'.trans hnext⟩

theorem nextObject_release (h : Heap) (id : ObjectId) :
    (h.release id).nextObject = h.nextObject := by
  unfold release
  cases h.objects[id]? with
  | none => rfl
  | some o =>
    dsimp only
    split
    · rfl
    · exact (runHooks_objects _ id o.hooks).2

/-- An object lives on when a handle to another one is dropped. -/
theorem Live.release {other : ObjectId} (hlive : h.Live other) (hother : other ≠ id) :
    (h.release id).Live other := by
  unfold Heap.release
  cases hobject : h.objects[id]? with
  | none => exact hlive
  | some o =>
    dsimp only
    split
    · exact (live_insert hobject other).mpr hlive
    · show other ∈ (o.hooks.foldl (runHook id) _).objects
      rw [(runHooks_objects _ id o.hooks).1, Std.HashMap.mem_erase]
      exact ⟨by simpa using hother.symm, hlive⟩

theorem spares_release (hall : h.Allocated) (id : ObjectId) : h.Spares cache (h.release id) := by
  unfold release
  cases hobject : h.objects[id]? with
  | none => exact .refl hall
  | some o =>
    have hid : h.Live id := Std.HashMap.mem_iff_isSome_getElem?.mpr (by rw [hobject]; rfl)
    dsimp only
    split
    · exact spares_of_live_iff hall (live_insert hobject) rfl rfl
    · -- the hooks run for an object that is no longer there
      have hgone : ({ h with objects := h.objects.erase id } : Heap).Dead id := by
        refine ⟨hall id hid, ?_⟩
        simp [Live]
      have herase : h.Spares cache { h with objects := h.objects.erase id } := by
        constructor
        · exact fun other hother => hall other (Std.HashMap.mem_of_mem_erase hother)
        · exact fun other hother =>
            ⟨hother.1, fun hlive => hother.2 (Std.HashMap.mem_of_mem_erase hlive)⟩
        · exact fun hmem => hmem
        · exact fun _ _ => rfl
      exact herase.trans (spares_runHooks herase.allocated hgone o.hooks)

theorem spares_releaseValue (hall : h.Allocated) (value : Value) :
    h.Spares cache (h.releaseValue value) := by
  cases value with
  | object id => exact spares_release hall id
  | _ => exact .refl hall

/-! ## Remembering fonts -/

theorem live_rememberFont (h : Heap) (owner other : ObjectId) (table : NameTable) :
    (h.rememberFont cache owner table).Live other ↔ h.Live other := by
  unfold rememberFont
  cases h.caches[cache]? with
  | none => exact Iff.rfl
  | some tables =>
    dsimp only
    split
    · exact Iff.rfl
    · exact live_onDrop _ owner other _

/-- The cache has the given names of every object that is not dead. -/
structure Remembers (cache : CacheId) (names : ObjectId → Option NameTable) (h : Heap) : Prop where
  allocated : h.Allocated
  mem : cache ∈ h.caches
  fontNames? : ∀ id, ¬h.Dead id → h.fontNames? cache id = names id

theorem Spares.remembers {names : ObjectId → Option NameTable} (hstep : h.Spares cache h')
    (hnames : h.Remembers cache names) : h'.Remembers cache names where
  allocated := hstep.allocated
  mem := hstep.mem hnames.mem
  fontNames? id hid := by
    rw [hstep.fontNames? id hid, hnames.fontNames? id fun hdead => hid (hstep.dead id hdead)]

theorem remembers_createCache (hall : h.Allocated) :
    h.createCache.2.Remembers h.createCache.1 fun _ => none where
  allocated := hall
  mem := Std.HashMap.mem_insert_self
  fontNames? id _ := by simp [Heap.fontNames?, cacheTables, createCache]

/-- The names of one object are replaced. -/
theorem Remembers.rememberFont {names : ObjectId → Option NameTable}
    (hnames : h.Remembers cache names) (owner : ObjectId) (table : NameTable) :
    (h.rememberFont cache owner table).Remembers cache
      (Function.update names owner (some table)) := by
  obtain ⟨tables, htables⟩ : ∃ tables, h.caches[cache]? = some tables :=
    Option.isSome_iff_exists.mp (Std.HashMap.mem_iff_isSome_getElem?.mp hnames.mem)
  have hremembered : ({ h with caches := h.caches.insert cache (tables.insert owner table) } :
      Heap).Remembers cache (Function.update names owner (some table)) := by
    constructor
    · exact hnames.allocated
    · exact Std.HashMap.mem_insert_self
    · intro id hid
      have hold := hnames.fontNames? id hid
      rw [Heap.fontNames?, cacheTables, Std.HashMap.getD_eq_getD_getElem?, htables] at hold
      rw [Heap.fontNames?, cacheTables, Std.HashMap.getD_insert_self, Std.HashMap.getElem?_insert]
      by_cases howner : owner = id
      · subst howner
        simp
      · rw [if_neg (by simpa using howner), Function.update_of_ne (Ne.symm howner)]
        exact hold
  unfold Heap.rememberFont
  rw [htables]
  dsimp only
  split
  · exact hremembered
  · exact (spares_onDrop hremembered.allocated owner _).remembers hremembered

end ClassPatch.Host.Heap
