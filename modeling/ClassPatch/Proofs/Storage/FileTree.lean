import Mathlib
import ClassPatch.Proofs.Preservation
import ClassPatch.Proofs.Storage.Path
import ClassPatch.Proofs.Success
import ClassPatch.Storage.FileTree

/-!
# File trees, place by place

A file tree is looked at through what is found at each place. A path leads to its place if all the
places before are those of directories, and a run that makes directories and writes files does no
more to any place than to put a directory where nothing was, or a file where no directory was. A
directory is therefore there for good once it is there, and a path that could be followed still can
be.
-/

namespace ClassPatch.Storage.FileTree

open Success Text

variable {t t' : FileTree} {place : Path} {item : Item}

/-! ## Insertion -/

theorem lookup_filter_ne {other : Path} (h : other ≠ place) (items : List (Path × Item)) :
    (items.filter (·.1 ≠ place)).lookup other = items.lookup other := by
  induction items with
  | nil => rfl
  | cons entry items ih =>
    rw [List.filter_cons]
    by_cases hentry : entry.1 = place
    · rw [if_neg (by simp [hentry]), ih, List.lookup_cons, hentry, beq_eq_false_iff_ne.mpr h]
    · rw [if_pos (by simp [hentry]), List.lookup_cons, List.lookup_cons, ih]

theorem find?_insert (t : FileTree) (place other : Path) (item : Item) :
    (t.insert place item).find? other = if other = place then some item else t.find? other := by
  unfold find? insert
  by_cases h : other = place
  · rw [List.lookup_cons, if_pos h, beq_iff_eq.mpr h]
  · rw [List.lookup_cons]
    rw [if_neg h, beq_eq_false_iff_ne.mpr h]
    exact lookup_filter_ne h t.items

/-- What is below a place, with the paths from there. -/
def below (t : FileTree) (place : Path) : List (Path × Item) := t.items.filterMap (below? place)

theorem below?_append {names : Path} (hne : names ≠ []) (place : Path) (item : Item) :
    below? place (place ++ names, item) = some (names, item) := by
  simp [below?, hne]

theorem mem_below_of_find? {names : Path} (hne : names ≠ [])
    (h : t.find? (place ++ names) = some item) : (names, item) ∈ t.below place := by
  obtain ⟨front, back, hitems, -⟩ := List.lookup_eq_some_iff.mp h
  apply List.mem_filterMap.mpr
  refine ⟨(place ++ names, item), ?_, below?_append hne place item⟩
  rw [hitems]
  simp

/-- What is new comes first. -/
theorem below_insert {names : Path} (hne : names ≠ []) (h : t.find? (place ++ names) = none)
    (item : Item) :
    (t.insert (place ++ names) item).below place = (names, item) :: t.below place := by
  have hkept : t.items.filter (·.1 ≠ place ++ names) = t.items := by
    apply List.filter_eq_self.mpr
    intro entry hentry
    have hother := List.lookup_eq_none_iff.mp h entry hentry
    exact decide_eq_true (Ne.symm (bne_iff_ne.mp hother))
  unfold below insert
  rw [List.filterMap_cons_some (below?_append hne place item), hkept]

theorem below_eq_nil (h : ∀ names, names ≠ [] → t.find? (place ++ names) = none) :
    t.below place = [] := by
  apply List.filterMap_eq_nil_iff.mpr
  intro entry hentry
  obtain ⟨other, item⟩ := entry
  unfold below?
  apply if_neg
  intro hbelow
  simp only [Bool.and_eq_true, List.isPrefixOf_iff_prefix, bne_iff_ne] at hbelow
  obtain ⟨⟨names, rfl⟩, hne⟩ := hbelow
  have hnames : names ≠ [] := by
    intro hnil
    exact hne (by rw [hnil, List.append_nil])
  have hnone := List.lookup_eq_none_iff.mp (h names hnames) _ hentry
  simp at hnone

/-! ## Paths that can be followed -/

theorem isLookedUp_mono {front path : Path} (h : front <+: path) (hpath : isLookedUp path) :
    isLookedUp front := by
  unfold isLookedUp at *
  simp only [Bool.and_eq_true, decide_eq_true_eq, List.all_eq_true] at *
  obtain ⟨hlength, hnames⟩ := hpath
  exact ⟨(Path.length_encode_text_le h).trans hlength, fun name hname => hnames name (h.mem hname)⟩

theorem foldlM_enter?_eq_some_iff {path above : Path} :
    path.foldlM t.enter? above = some place ↔ place = path.foldl Path.step above ∧
      ∀ front, front <+: path → front ≠ path →
        t.find? (front.foldl Path.step above) = some .directory := by
  induction path generalizing above with
  | nil =>
    simp only [List.foldlM_nil, List.prefix_nil, List.foldl_nil]
    constructor
    · intro h
      exact ⟨(Option.some.inj h).symm, fun front hfront hne => absurd hfront hne⟩
    · intro h
      rw [h.1]
      rfl
  | cons name path ih =>
    rw [List.foldlM_cons]
    by_cases habove : t.find? above = some .directory
    · rw [enter?, if_pos habove, Option.bind_eq_bind, Option.bind_some, ih]
      simp only [List.prefix_cons_iff, List.foldl_cons]
      constructor
      · rintro ⟨hplace, hfronts⟩
        refine ⟨hplace, ?_⟩
        rintro front (rfl | ⟨front, rfl, hfront⟩) hne
        · exact habove
        · exact hfronts front hfront fun heq => hne (by rw [heq])
      · rintro ⟨hplace, hfronts⟩
        refine ⟨hplace, fun front hfront hne => ?_⟩
        exact hfronts (name :: front) (.inr ⟨front, rfl, hfront⟩) (by simpa using hne)
    · rw [enter?, if_neg habove]
      constructor
      · intro h
        cases h
      · intro h
        exact absurd (h.2 [] List.nil_prefix (by simp)) habove

/-- A path that is looked up leads to its place, if what stands before is all directories. -/
theorem resolve?_eq_some_iff {path : Path} :
    t.resolve? path = some place ↔ isLookedUp path ∧ place = Path.place path ∧
      ∀ front, front <+: path → front ≠ path → t.find? (Path.place front) = some .directory := by
  unfold resolve?
  split
  · rename_i hpath
    rw [foldlM_enter?_eq_some_iff]
    simp [hpath, Path.place]
  · rename_i hpath
    simp [hpath]

/-! ## Making directories and writing files -/

theorem get_eq (t : FileTree) : (get : TreeEdit FileTree) t = .ok t t := rfl

/-- What comes of making a directory, by what is at its place. -/
theorem makeDirectory_eq (place : Path) (t : FileTree) : makeDirectory place t =
    match t.find? place with
    | some .directory => .ok () t
    | some (.file _) => .error .file t
    | none =>
      if place.getLast?.all isName then .ok () (t.insert place .directory) else .error .file t := by
  unfold makeDirectory
  rw [state_bind_ok (get_eq t)]
  cases t.find? place with
  | none => dsimp only; split <;> rfl
  | some item => cases item <;> rfl

/-- What comes of writing a file, by the place that its path leads to. -/
theorem writeFile_eq (path : Path) (data : List UInt8) (t : FileTree) : writeFile path data t =
    match t.resolve? path with
    | none => .error .file t
    | some place =>
      if t.canWrite place then .ok () (t.insert place (.file data)) else .error .file t := by
  unfold writeFile
  rw [state_bind_ok (get_eq t)]
  cases t.resolve? path with
  | none => rfl
  | some place => dsimp only; split <;> rfl

theorem makeDirectory_bind_descend (above path : Path) :
    (do makeDirectory above; let _ ← path.foldlM descend above) =
      (path.inits.map (·.foldl Path.step above)).forM makeDirectory := by
  induction path generalizing above with
  | nil => simp
  | cons name path ih =>
    have hrest := ih (above.step name)
    simp only [List.foldlM_cons, descend, List.inits_cons, List.map_cons, List.map_map,
      List.forM_eq_forM, List.forM_cons, bind_assoc, pure_bind] at hrest ⊢
    rw [hrest]
    rfl

/-- The directories of a path are made one after the other, at the places of its starts. -/
theorem makeDirectories_eq {path : Path} (h : isLookedUp path) :
    makeDirectories path = (path.inits.map Path.place).forM makeDirectory := by
  unfold makeDirectories
  rw [if_pos h]
  exact makeDirectory_bind_descend [] path

/-! ## What a run does to a tree -/

/-- What a run does to what is at one place: it makes a directory where nothing was, or writes data
where no directory was. What is new has to have a name that a directory can hold. -/
inductive Edit (way : Prop) (target : List UInt8 → Prop) (named : Prop) :
    Option Item → Option Item → Prop
  | kept (found : Option Item) : Edit way target named found found
  | made : way → named → Edit way target named none (some .directory)
  | written {found : Option Item} {data : List UInt8} : found ≠ some .directory →
      (found = none → named) → target data → Edit way target named found (some (.file data))

theorem Edit.trans {way named : Prop} {target : List UInt8 → Prop} {a b c : Option Item}
    (hab : Edit way target named a b) (hbc : Edit way target named b c) :
    Edit way target named a c := by
  cases hab with
  | kept => exact hbc
  | made hway hnamed =>
    cases hbc with
    | kept => exact .made hway hnamed
    | written hfound => exact absurd rfl hfound
  | written hfound hnamed htarget =>
    cases hbc with
    | kept => exact .written hfound hnamed htarget
    | written _ _ hagain => exact .written hfound hnamed hagain

/-- A run makes directories at some places and writes data to others, and does nothing else. -/
def Edits (ways : Path → Prop) (targets : Path → List UInt8 → Prop) (t t' : FileTree) : Prop :=
  ∀ place, Edit (ways place) (targets place) (place.getLast?.all isName) (t.find? place)
    (t'.find? place)

namespace Edits

variable {ways : Path → Prop} {targets : Path → List UInt8 → Prop}

instance : Std.Refl (Edits ways targets) where
  refl t place := .kept (t.find? place)

instance : IsTrans FileTree (Edits ways targets) where
  trans _ _ _ h h' place := (h place).trans (h' place)

/-- Directories stay. -/
theorem find?_directory (h : Edits ways targets t t') (hplace : t.find? place = some .directory) :
    t'.find? place = some .directory := by
  have hedit := h place
  rw [hplace] at hedit
  generalize t'.find? place = found at hedit
  cases hedit with
  | kept => rfl
  | written hfound => exact absurd rfl hfound

/-- Nothing is lost. -/
theorem find?_ne_none (h : Edits ways targets t t') (hplace : t.find? place ≠ none) :
    t'.find? place ≠ none := by
  have hedit := h place
  generalize t.find? place = found at hedit hplace
  generalize t'.find? place = found' at hedit
  cases hedit with
  | kept => exact hplace
  | made => simp
  | written => simp

theorem isName_of_find? (h : Edits ways targets t t') (hnone : t.find? place = none)
    (hplace : t'.find? place ≠ none) : place.getLast?.all isName := by
  have hedit := h place
  rw [hnone] at hedit
  generalize t'.find? place = found at hedit hplace
  cases hedit with
  | kept => exact absurd rfl hplace
  | made _ hnamed => exact hnamed
  | written _ hnamed _ => exact hnamed rfl

/-- A path that could be followed still can be. -/
theorem resolve? (h : Edits ways targets t t') {path : Path}
    (hpath : t.resolve? path = some place) : t'.resolve? path = some place := by
  obtain ⟨hlooked, hplace, hfronts⟩ := resolve?_eq_some_iff.mp hpath
  refine resolve?_eq_some_iff.mpr ⟨hlooked, hplace, fun front hfront hne => ?_⟩
  exact h.find?_directory (hfronts front hfront hne)

theorem insert (h : Edit (ways place) (targets place) (place.getLast?.all isName) (t.find? place)
    (some item)) : Edits ways targets t (t.insert place item) := by
  intro other
  rw [find?_insert]
  split
  · rename_i hother
    rw [hother]
    exact h
  · exact .kept (t.find? other)

theorem keeps_makeDirectory (h : ways place) :
    Keeps (Edits ways targets) (makeDirectory place) := by
  intro t
  rw [makeDirectory_eq]
  split
  · exact Std.Refl.refl t
  · exact Std.Refl.refl t
  · rename_i hnone
    split
    · rename_i hnamed
      apply insert
      rw [hnone]
      exact .made h hnamed
    · exact Std.Refl.refl t

/-- Directories are made at the places of the starts of a path. -/
theorem keeps_makeDirectories {path : Path}
    (h : ∀ front, front <+: path → ways (Path.place front)) :
    Keeps (Edits ways targets) (makeDirectories path) := by
  by_cases hlooked : isLookedUp path
  · rw [makeDirectories_eq hlooked]
    apply Keeps.forM_of_mem
    intro place hplace
    obtain ⟨front, hfront, rfl⟩ := List.mem_map.mp hplace
    exact keeps_makeDirectory (h front ((List.mem_inits front path).mp hfront))
  · unfold makeDirectories
    rw [if_neg hlooked]
    exact Keeps.throw _

/-- A file is written to the place of its path. -/
theorem keeps_writeFile {path : Path} {data : List UInt8} (h : targets (Path.place path) data) :
    Keeps (Edits ways targets) (writeFile path data) := by
  intro t
  rw [writeFile_eq]
  split
  · exact Std.Refl.refl t
  · rename_i place hpath
    obtain ⟨-, rfl, -⟩ := resolve?_eq_some_iff.mp hpath
    split
    · rename_i hwrite
      apply insert
      unfold canWrite at hwrite
      split at hwrite
      · cases hwrite
      · rename_i hfile
        rw [hfile]
        exact .written (by simp) (by simp) h
      · rename_i hnone
        rw [hnone]
        refine .written (by simp) (fun _ => ?_) h
        cases hlast : (Path.place path).getLast? with
        | none => rfl
        | some name => simpa [hlast] using hwrite
    · exact Std.Refl.refl t

end Edits

end ClassPatch.Storage.FileTree
