import Mathlib
import ClassPatch.Proofs.Storage.Folder
import ClassPatch.Proofs.Text.ByteOrder

/-!
# Artifacts that are written and read back

Entries can be written into an empty folder if none of them stands in the way of another one and the
file system can hold their names. While the loop runs, the files below the folder are those of the
entries so far, and its directories lie on the ways to entries: so there is nothing yet at the end
of the next path and no file on its way. Reading finds the files of all entries then, and sorting
brings their names into the order of their bytes.
-/

namespace ClassPatch.Storage

open FileTree Success Text

/-! ## A folder that takes the entries -/

/-- The file system can hold a path below a folder: it is looked up, and none of its names is too
long for a directory. -/
def IsHoldable (folder path : Path) : Prop :=
  isLookedUp (folder.join path) ∧ ∀ name ∈ path, isName name

instance (folder path : Path) : Decidable (IsHoldable folder path) :=
  inferInstanceAs (Decidable (_ ∧ _))

/-- Each name of a path that is looked up costs a byte, and the slash before it another one. -/
theorem IsHoldable.length_le {folder path : Path} (h : IsHoldable folder path) :
    (folder.join path).length ≤ maxPathBytes + 1 := by
  have hlooked := h.1
  unfold isLookedUp at hlooked
  rw [Bool.and_eq_true, decide_eq_true_eq] at hlooked
  have hlength := Path.length_le_length_encode_text (folder.join path)
  omega

/-- Paths that can all be written below a folder: none of them leads through another one. -/
structure AreWritable (folder : Path) (paths : List Path) : Prop where
  isPlain : ∀ path ∈ paths, ∀ name ∈ path, Path.IsPlain name
  ne_nil : ∀ path ∈ paths, path ≠ []
  eq_of_isPrefix : ∀ path ∈ paths, ∀ other ∈ paths, path <+: other → path = other
  isHoldable : ∀ path ∈ paths, IsHoldable folder path

/-- A folder with files, and with directories only on the ways to the given paths. -/
structure Contains (folder : Path) (paths : List Path) (files : List (Path × List UInt8))
    (t : FileTree) : Prop where
  resolves : t.resolve? folder = some folder.place
  directory : t.find? folder.place = some .directory
  files_eq : (t.below folder.place).filterMap file? = files
  mem_paths : ∀ file ∈ files, file.1 ∈ paths
  isStartOf : ∀ names, (names, .directory) ∈ t.below folder.place → IsStartOf paths names

/-- There is a directory at the place, or one may be made there on the way to one of the paths. -/
def IsPassable (folder : Path) (paths : List Path) (t : FileTree) (place : Path) : Prop :=
  t.find? place = some .directory ∨
    ∃ names, names ≠ [] ∧ IsStartOf paths names ∧ place = folder.place ++ names

section

variable {names : Path} (hne : names ≠ []) (h : ∀ name ∈ names, isName name) (place : Path)

include hne h

/-- The last name of a place below another one is a name of the way from there. -/
theorem exists_getLast?_isName : ∃ last, (place ++ names).getLast? = some last ∧ isName last := by
  refine ⟨names.getLast hne, ?_, h _ (List.getLast_mem hne)⟩
  rw [List.getLast?_append_of_ne_nil _ hne, List.getLast?_eq_some_getLast hne]

theorem getLast?_all_isName : (place ++ names).getLast?.all isName := by
  obtain ⟨last, hlast, hname⟩ := exists_getLast?_isName hne h place
  rwa [hlast]

theorem getLast?_any_isName : (place ++ names).getLast?.any isName := by
  obtain ⟨last, hlast, hname⟩ := exists_getLast?_isName hne h place
  rwa [hlast]

end

/-- A run that may make any directory and write any file. -/
abbrev Grows : FileTree → FileTree → Prop := Edits (fun _ => True) (fun _ _ => True)

namespace Contains

variable {folder : Path} {paths : List Path} {files : List (Path × List UInt8)} {t : FileTree}

theorem find?_front (h : Contains folder paths files t) {front : Path} (hfront : front <+: folder) :
    t.find? (Path.place front) = some .directory := by
  by_cases heq : front = folder
  · rw [heq]
    exact h.directory
  · exact (resolve?_eq_some_iff.mp h.resolves).2.2 front hfront heq

theorem mem_files (h : Contains folder paths files t) {names : Path} {data : List UInt8}
    (hne : names ≠ []) (hfind : t.find? (folder.place ++ names) = some (.file data)) :
    (names, data) ∈ files := by
  rw [← h.files_eq, List.mem_filterMap]
  exact ⟨(names, .file data), mem_below_of_find? hne hfind, rfl⟩

/-- An item can be put below the folder where nothing is, if a directory is on a way and a file is
at the end of one. -/
theorem insert (h : Contains folder paths files t) {names : Path} (item : Item) (hne : names ≠ [])
    (hnone : t.find? (folder.place ++ names) = none) (hname : ∀ name ∈ names, isName name)
    (hway : item = .directory → IsStartOf paths names)
    (hend : item ≠ .directory → names ∈ paths) :
    Contains folder paths ((file? (names, item)).toList ++ files)
      (t.insert (folder.place ++ names) item) := by
  have hlast := getLast?_all_isName hne hname folder.place
  have hgrows : Grows t (t.insert (folder.place ++ names) item) := by
    apply Edits.insert
    rw [hnone]
    cases item with
    | directory => exact .made trivial hlast
    | file data => exact .written (by simp) (fun _ => hlast) trivial
  refine ⟨hgrows.resolve? h.resolves, hgrows.find?_directory h.directory, ?_, ?_, ?_⟩
  · rw [below_insert hne hnone, ← h.files_eq]
    cases item <;> rfl
  · cases item with
    | directory => exact h.mem_paths
    | file data => exact List.forall_mem_cons.mpr ⟨hend (by simp), h.mem_paths⟩
  · intro other hother
    rw [below_insert hne hnone] at hother
    rcases List.mem_cons.mp hother with heq | hold
    · cases heq
      exact hway rfl
    · exact h.isStartOf other hold

section

variable (hpaths : AreWritable folder paths) (h : Contains folder paths files t)

include hpaths h

/-- On the way to a path there is no file, for this would be one of the paths itself. -/
theorem find?_of_isStartOf {names : Path} (hne : names ≠ []) (hstart : IsStartOf paths names) :
    t.find? (folder.place ++ names) = none ∨
      t.find? (folder.place ++ names) = some .directory := by
  cases hfind : t.find? (folder.place ++ names) with
  | none => exact .inl rfl
  | some item =>
    cases item with
    | directory => exact .inr rfl
    | file data =>
      obtain ⟨path, hpath, hpre, hproper⟩ := hstart
      have hnames := h.mem_paths _ (h.mem_files hne hfind)
      exact absurd (hpaths.eq_of_isPrefix names hnames path hpath hpre) hproper

/-- At the end of a path there is nothing until its file is written. -/
theorem find?_eq_none {path : Path} (hpath : path ∈ paths) (hnew : path ∉ files.map Prod.fst) :
    t.find? (folder.place ++ path) = none := by
  have hne := hpaths.ne_nil path hpath
  cases hfind : t.find? (folder.place ++ path) with
  | none => rfl
  | some item =>
    cases item with
    | directory =>
      obtain ⟨other, hother, hpre, hproper⟩ := h.isStartOf path (mem_below_of_find? hne hfind)
      exact absurd (hpaths.eq_of_isPrefix path hpath other hother hpre) hproper
    | file data => exact absurd (List.mem_map_of_mem (h.mem_files hne hfind)) hnew

theorem exists_makeDirectory {place : Path} (hplace : IsPassable folder paths t place) :
    ∃ t', makeDirectory place t = .ok () t' ∧ Contains folder paths files t' ∧
      t'.find? place = some .directory := by
  rw [makeDirectory_eq]
  rcases hplace with hfind | ⟨names, hne, hstart, rfl⟩
  · rw [hfind]
    exact ⟨t, rfl, h, hfind⟩
  · rcases h.find?_of_isStartOf hpaths hne hstart with hnone | hfind
    · have hnamed : ∀ name ∈ names, isName name := by
        obtain ⟨path, hpath, hpre, -⟩ := hstart
        exact fun name hname => (hpaths.isHoldable path hpath).2 name (hpre.mem hname)
      rw [hnone]
      refine ⟨_, if_pos (getLast?_all_isName hne hnamed folder.place), ?_, ?_⟩
      · exact h.insert .directory hne hnone hnamed (fun _ => hstart) fun hfile => absurd rfl hfile
      · rw [find?_insert, if_pos rfl]
    · rw [hfind]
      exact ⟨t, rfl, h, hfind⟩

theorem exists_forM_makeDirectory {places : List Path}
    (hplaces : ∀ place ∈ places, IsPassable folder paths t place) :
    ∃ t', places.forM makeDirectory t = .ok () t' ∧ Contains folder paths files t' ∧
      ∀ place ∈ places, t'.find? place = some .directory := by
  induction places generalizing t with
  | nil => exact ⟨t, rfl, h, by simp⟩
  | cons place places ih =>
    obtain ⟨hplace, hrest⟩ := List.forall_mem_cons.mp hplaces
    obtain ⟨t₁, hmake, h₁, hfind⟩ := h.exists_makeDirectory hpaths hplace
    have hgrows : Grows t t₁ := (Edits.keeps_makeDirectory trivial).of_ok hmake
    obtain ⟨t', hrun, h', hfinds⟩ := ih h₁ fun other hother =>
      (hrest other hother).imp_left hgrows.find?_directory
    have hgrows' : Grows t₁ t' :=
      (Keeps.forM (fun _ => Edits.keeps_makeDirectory trivial) places).of_ok hrun
    refine ⟨t', (state_bind_ok hmake).trans hrun, h', ?_⟩
    exact List.forall_mem_cons.mpr ⟨hgrows'.find?_directory hfind, hfinds⟩

/-- The directories on the way to a file can be made, and then its path can be followed. -/
theorem exists_makeDirectories {path : Path} (hpath : path ∈ paths) :
    ∃ t', makeDirectories (folder.join path).parent t = .ok () t' ∧
      Contains folder paths files t' ∧
      t'.resolve? (folder.join path) = some (folder.place ++ path) := by
  have hplain := hpaths.isPlain path hpath
  have hne := hpaths.ne_nil path hpath
  have hlooked := (hpaths.isHoldable path hpath).1
  have hparent := Path.parent_prefix_dropLast (folder.join path)
  have hplaces : ∀ place ∈ (folder.join path).parent.inits.map Path.place,
      IsPassable folder paths t place := by
    intro place hplace
    obtain ⟨front, hfront, rfl⟩ := List.mem_map.mp hplace
    have hbefore := ((List.mem_inits front _).mp hfront).trans hparent
    rcases place_before_last hplain hne hbefore with
      hway | ⟨names, hnames, hpre, hproper, hplace⟩
    · exact .inl (h.find?_front hway)
    · exact .inr ⟨names, hnames, ⟨path, hpath, hpre, hproper⟩, hplace⟩
  obtain ⟨t', hmake, h', hfinds⟩ := h.exists_forM_makeDirectory hpaths hplaces
  refine ⟨t', ?_, h', ?_⟩
  · rw [makeDirectories_eq (isLookedUp_mono (hparent.trans (List.dropLast_prefix _)) hlooked)]
    exact hmake
  · refine resolve?_eq_some_iff.mpr ⟨hlooked, (Path.place_join folder hplain).symm, ?_⟩
    intro front hfront hproper
    -- what stays at the end of the parent leads to the same place
    obtain ⟨start, hstart, hplace⟩ := Path.exists_prefix_parent
      ((Path.prefix_dropLast_iff (Path.join_ne_nil hne folder)).mpr ⟨hfront, hproper⟩)
    rw [← hplace]
    exact hfinds _ (List.mem_map_of_mem ((List.mem_inits start _).mpr hstart))

/-- The next file can be written. -/
theorem exists_writeBelow {path : Path} (hpath : path ∈ paths) (hnew : path ∉ files.map Prod.fst)
    (data : List UInt8) :
    ∃ t', writeBelow folder path data t = .ok () t' ∧
      Contains folder paths ((path, data) :: files) t' := by
  have hne := hpaths.ne_nil path hpath
  have hnamed := (hpaths.isHoldable path hpath).2
  obtain ⟨t₁, hmake, h₁, hresolves⟩ := h.exists_makeDirectories hpaths hpath
  have hnone := h₁.find?_eq_none hpaths hpath hnew
  have hwrite : t₁.canWrite (folder.place ++ path) := by
    unfold canWrite
    rw [hnone]
    exact getLast?_any_isName hne hnamed folder.place
  refine ⟨t₁.insert (folder.place ++ path) (.file data), ?_, ?_⟩
  · unfold writeBelow
    rw [state_bind_ok hmake, writeFile_eq, hresolves]
    exact if_pos hwrite
  · exact h₁.insert (.file data) hne hnone hnamed (fun hfile => nomatch hfile) fun _ => hpath

/-- All files can be written, one after the other. -/
theorem exists_forM_writeBelow {more : List (Path × List UInt8)}
    (hmore : ∀ file ∈ more, file.1 ∈ paths)
    (hnodup : ((more ++ files).map Prod.fst).Nodup) :
    ∃ t', (more.forM fun file => writeBelow folder file.1 file.2) t = .ok () t' ∧
      Contains folder paths (more.reverse ++ files) t' := by
  induction more generalizing t files with
  | nil => exact ⟨t, rfl, h⟩
  | cons file more ih =>
    obtain ⟨hfile, hrest⟩ := List.forall_mem_cons.mp hmore
    have hmoved : ((more ++ file :: files).map Prod.fst).Nodup :=
      (List.perm_middle.map Prod.fst).nodup_iff.mpr hnodup
    have hnew : file.1 ∉ files.map Prod.fst := by
      rw [List.map_append, List.map_cons] at hmoved
      exact (List.nodup_cons.mp hmoved.of_append_right).1
    obtain ⟨t₁, hwrite, h₁⟩ := h.exists_writeBelow hpaths hfile hnew file.2
    obtain ⟨t', hrun, h'⟩ := ih h₁ hrest hmoved
    refine ⟨t', (state_bind_ok hwrite).trans hrun, ?_⟩
    rw [List.reverse_cons, List.append_assoc]
    exact h'

/-- Reading finds the files, and nothing else. -/
theorem filesBelow_eq : t.filesBelow folder = .ok files := by
  have hlooked : ∀ item ∈ t.below folder.place, isLookedUp (folder.join item.1) := by
    intro item hitem
    obtain ⟨names, item⟩ := item
    cases item with
    | directory =>
      obtain ⟨path, hpath, hpre, -⟩ := h.isStartOf names hitem
      exact isLookedUp_mono (Path.join_prefix_join folder hpre)
        (hpaths.isHoldable path hpath).1
    | file data =>
      have hmem : (names, data) ∈ files := by
        rw [← h.files_eq]
        exact List.mem_filterMap.mpr ⟨_, hitem, rfl⟩
      exact (hpaths.isHoldable names (h.mem_paths _ hmem)).1
  unfold filesBelow
  rw [h.resolves, ← h.files_eq]
  apply if_pos
  rw [Bool.and_eq_true, List.all_eq_true]
  exact ⟨decide_eq_true h.directory, hlooked⟩

end

end Contains

/-! ## What is read back -/

/-- Entries that are sorted by their names are in the order of the bytes of the names. -/
theorem pairwise_mergeSort_names {entries : List Entry} (h : (entries.map Entry.name).Nodup) :
    (entries.mergeSort fun a b => a.name ≤ b.name).Pairwise fun a b =>
      Utf8.encode a.name < Utf8.encode b.name := by
  have hsorted : (entries.mergeSort fun a b => a.name ≤ b.name).Pairwise fun a b =>
      decide (a.name ≤ b.name) = true := by
    apply List.pairwise_mergeSort
    · intro a b c hab hbc
      exact decide_eq_true ((of_decide_eq_true hab).trans (of_decide_eq_true hbc))
    · intro a b
      simpa using String.le_total a.name b.name
  have hnodup : ((entries.mergeSort fun a b => a.name ≤ b.name).map Entry.name).Nodup :=
    ((List.mergeSort_perm entries _).map Entry.name).nodup_iff.mpr h
  refine (hsorted.and (List.pairwise_map.mp hnodup)).imp fun hnames => ?_
  exact Utf8.encode_lt_encode (lt_of_le_of_ne (of_decide_eq_true hnames.1) hnames.2)

/-- A folder that is there, with nothing in it. -/
structure IsEmptyDirectory (t : FileTree) (folder : Path) : Prop where
  resolves : t.resolve? folder = some folder.place
  directory : t.find? folder.place = some .directory
  nothing : ∀ names, names ≠ [] → t.find? (folder.place ++ names) = none

/-- An entry is the directory of another one: the name of the other one goes on after it with a
slash. -/
def IsDirectoryOf (entry other : Entry) : Prop := ∃ rest, other.name = entry.name ++ "/" ++ rest

/-- No entry is another one of them or a directory of one. -/
structure StandApart (entries : List Entry) : Prop where
  nodup : (entries.map Entry.name).Nodup
  not_isDirectoryOf : ∀ entry ∈ entries, ∀ other ∈ entries, ¬IsDirectoryOf entry other

theorem standApart_singleton (entry : Entry) : StandApart [entry] where
  nodup := List.nodup_singleton entry.name
  not_isDirectoryOf := by
    intro a ha b hb h
    rw [List.mem_singleton.mp ha, List.mem_singleton.mp hb] at h
    obtain ⟨rest, hrest⟩ := h
    have hlength := congrArg String.length hrest
    simp only [String.length_append] at hlength
    have hslash : "/".length = 1 := rfl
    omega

/-- The file of an entry, by its path within the folder. -/
def fileOf (entry : Entry) : Path × List UInt8 := (Path.ofText entry.name, entry.data)

/-- A file is read as the entry that it was written for. -/
theorem map_fileOf (entries : List Entry) :
    (entries.map fileOf).map (fun (path, data) => ({ name := path.text, data } : Entry)) =
      entries := by
  rw [List.map_map]
  refine (List.map_congr_left fun entry _ => ?_).trans (List.map_id entries)
  show Entry.mk (Path.ofText entry.name).text entry.data = entry
  rw [Path.text_ofText]

section

variable {folder : Path} {entries : List Entry} {t : FileTree}

theorem IsEmptyDirectory.contains (h : IsEmptyDirectory t folder) (paths : List Path) :
    Contains folder paths [] t := by
  have hbelow := below_eq_nil h.nothing
  refine ⟨h.resolves, h.directory, ?_, by simp, ?_⟩
  · rw [hbelow]
    rfl
  · rw [hbelow]
    simp

theorem areWritable_of_entries (hplain : PlainNames entries) (hapart : StandApart entries)
    (hholdable : ∀ entry ∈ entries, IsHoldable folder (Path.ofText entry.name)) :
    AreWritable folder (entryPaths entries) where
  isPlain := List.forall_mem_map.mpr hplain
  ne_nil := List.forall_mem_map.mpr fun entry _ => Path.ofText_ne_nil entry.name
  isHoldable := List.forall_mem_map.mpr hholdable
  eq_of_isPrefix := by
    intro path hpath other hother hpre
    obtain ⟨a, ha, rfl⟩ := List.mem_map.mp hpath
    obtain ⟨b, hb, rfl⟩ := List.mem_map.mp hother
    by_contra hne
    obtain ⟨rest, hrest⟩ := Path.exists_text_eq_append hpre hne (Path.ofText_ne_nil a.name)
    rw [Path.text_ofText, Path.text_ofText] at hrest
    exact hapart.not_isDirectoryOf a ha b hb ⟨rest, hrest⟩

/-- Entries that do not stand in the way of each other can be written into an empty folder, and what
is read from it are these entries, sorted. -/
theorem exists_writeFolder (hplain : PlainNames entries) (hapart : StandApart entries)
    (hempty : IsEmptyDirectory t folder)
    (hholdable : ∀ entry ∈ entries, IsHoldable folder (Path.ofText entry.name)) :
    ∃ t' sorted, writeFolder folder entries t = .ok () t' ∧
      readFolder t' folder = .ok ⟨folder.text, sorted⟩ ∧ sorted.Perm entries ∧
      sorted.Pairwise fun a b => Utf8.encode a.name < Utf8.encode b.name := by
  have hpaths := areWritable_of_entries hplain hapart hholdable
  have hmem : ∀ file ∈ entries.map fileOf, file.1 ∈ entryPaths entries :=
    List.forall_mem_map.mpr fun entry hentry => List.mem_map_of_mem hentry
  have hnodup : ((entries.map fileOf ++ []).map Prod.fst).Nodup := by
    rw [List.append_nil, List.map_map]
    have hmap := hapart.nodup.map Path.ofText_injective
    rwa [List.map_map] at hmap
  obtain ⟨t', hwrite, hcontains⟩ :=
    (hempty.contains _).exists_forM_writeBelow hpaths hmem hnodup
  rw [List.append_nil] at hcontains
  refine ⟨t', entries.reverse.mergeSort fun a b => a.name ≤ b.name, ?_, ?_, ?_, ?_⟩
  · rw [writeFolder_of_plainNames hplain, ← hwrite, List.forM_eq_forM, List.forM_eq_forM,
      List.forM_map]
    rfl
  · unfold readFolder
    rw [hcontains.filesBelow_eq hpaths, ← List.map_reverse]
    show Except.ok (Artifact.mk _ (List.mergeSort (List.map _ (List.map _ _)) _)) = _
    rw [map_fileOf]
  · exact (List.mergeSort_perm _ _).trans (List.reverse_perm entries)
  · apply pairwise_mergeSort_names
    rw [List.map_reverse]
    exact List.nodup_reverse.mpr hapart.nodup

end

/-! ## What a written folder says about the names -/

section

variable {folder path : Path} {data : List UInt8} {t t' : FileTree}

/-- A file that was written can be found, and so can the directories on its way. -/
theorem found_of_writeBelow (hplain : ∀ name ∈ path, Path.IsPlain name)
    (h : writeBelow folder path data t = .ok () t') :
    isLookedUp (folder.join path) ∧
      ∀ names, names <+: path → t'.find? (folder.place ++ names) ≠ none := by
  obtain ⟨⟨⟩, t₁, -, hwrite⟩ := state_bind.mp h
  have hgrows : Grows t₁ t' := (Edits.keeps_writeFile trivial).of_ok hwrite
  rw [writeFile_eq] at hwrite
  split at hwrite
  · cases hwrite
  rename_i place hresolves
  obtain ⟨hlooked, rfl, hfronts⟩ := resolve?_eq_some_iff.mp hresolves
  refine ⟨hlooked, fun names hpre => ?_⟩
  split at hwrite
  · cases hwrite
    have hnames := Path.place_join folder fun name hname => hplain name (hpre.mem hname)
    by_cases heq : names = path
    · rw [find?_insert, ← hnames, heq, if_pos rfl]
      simp
    · apply hgrows.find?_ne_none
      rw [← hnames, hfronts _ (Path.join_prefix_join folder hpre) fun hjoin => heq ?_]
      · simp
      · rw [Path.join_eq folder names, Path.join_eq folder path] at hjoin
        exact List.append_cancel_left hjoin
  · cases hwrite

theorem grows_writeBelow : Keeps Grows (writeBelow folder path data) :=
  Keeps.bind (Edits.keeps_makeDirectories fun _ _ => trivial) fun _ =>
    Edits.keeps_writeFile trivial

theorem found_of_forM_writeBelow {entries : List Entry} (hplain : PlainNames entries)
    (h : (entries.forM fun entry => writeBelow folder (Path.ofText entry.name) entry.data) t =
      .ok () t') :
    ∀ entry ∈ entries, isLookedUp (folder.join (Path.ofText entry.name)) ∧
      ∀ names, names <+: Path.ofText entry.name → t'.find? (folder.place ++ names) ≠ none := by
  induction entries generalizing t with
  | nil => simp
  | cons entry entries ih =>
    obtain ⟨hfirst, hrest⟩ := List.forall_mem_cons.mp hplain
    obtain ⟨⟨⟩, t₁, hwrite, hmore⟩ := state_bind.mp h
    obtain ⟨hlooked, hfind⟩ := found_of_writeBelow hfirst hwrite
    have hgrows : Grows t₁ t' := (Keeps.forM (fun _ => grows_writeBelow) entries).of_ok hmore
    refine List.forall_mem_cons.mpr ⟨⟨hlooked, fun names hpre => ?_⟩, ih hrest hmore⟩
    exact hgrows.find?_ne_none (hfind names hpre)

/-- What could be written into an empty folder has names that the file system can hold. -/
theorem isHoldable_of_writeFolder {entries : List Entry} (hplain : PlainNames entries)
    (hempty : IsEmptyDirectory t folder) (h : writeFolder folder entries t = .ok () t') :
    ∀ entry ∈ entries, IsHoldable folder (Path.ofText entry.name) := by
  rw [writeFolder_of_plainNames hplain] at h
  have hgrows : Grows t t' := (Keeps.forM (fun _ => grows_writeBelow) entries).of_ok h
  intro entry hentry
  obtain ⟨hlooked, hfind⟩ := found_of_forM_writeBelow hplain h entry hentry
  refine ⟨hlooked, fun name hname => ?_⟩
  -- a name was made with the directory or file that the path down to it leads to
  obtain ⟨front, back, hpath⟩ := List.append_of_mem hname
  have hpre : front ++ [name] <+: Path.ofText entry.name := ⟨back, by simp [hpath]⟩
  have hnamed := hgrows.isName_of_find? (hempty.nothing (front ++ [name]) (by simp))
    (hfind _ hpre)
  rw [← List.append_assoc, List.getLast?_concat] at hnamed
  exact hnamed

end

/-! ## Writing and reading back -/

/-- An artifact is written into a folder only if all names of its entries are plain; otherwise
nothing changes. Each entry has a place of its own strictly below the folder, and nothing but these
files and directories on the ways to them is written, also if the writing fails. If no entry is
another one or a directory of it and the folder is empty, the entries can be written exactly if the
file system can hold their names, and then they are read back, in the order of the bytes of their
names. -/
theorem writeFolder_readFolder (folder : Path) (entries : List Entry) (t : FileTree) :
    ((∃ entry ∈ entries, ∃ part ∈ Path.ofText entry.name, part = "" ∨ part = "." ∨ part = "..") →
      ∃ entry ∈ entries,
        writeFolder folder entries t = .error (.malformed (.entryName entry.name)) t) ∧
    ((∀ entry ∈ entries, ∀ part ∈ Path.ofText entry.name,
        part ≠ "" ∧ part ≠ "." ∧ part ≠ "..") →
      Edits (IsOnWay folder entries) (IsPlaceOf folder entries) t
        (stateAfter (writeFolder folder entries t)) ∧
      (∀ entry ∈ entries, Path.ofText entry.name ≠ [] ∧
        (folder.join (Path.ofText entry.name)).place = folder.place ++ Path.ofText entry.name) ∧
      (∀ entry ∈ entries, ∀ other ∈ entries, entry.name ≠ other.name →
        folder.place ++ Path.ofText entry.name ≠ folder.place ++ Path.ofText other.name) ∧
      (StandApart entries → IsEmptyDirectory t folder →
        ((∃ t', writeFolder folder entries t = .ok () t') ↔
          ∀ entry ∈ entries, IsHoldable folder (Path.ofText entry.name)) ∧
        ∀ t', writeFolder folder entries t = .ok () t' →
          ∃ sorted, readFolder t' folder = .ok ⟨folder.text, sorted⟩ ∧ sorted.Perm entries ∧
            sorted.Pairwise fun a b => Utf8.encode a.name < Utf8.encode b.name)) := by
  constructor
  · intro h
    obtain ⟨entry, hentry, part, hpart, hbad⟩ := h
    have hnot : ¬Path.IsPlain part := by
      rw [Path.isPlain_iff]
      tauto
    obtain ⟨shown, hshown, -, hrun⟩ :=
      writeFolder_of_not_isPlain ⟨entry, hentry, part, hpart, hnot⟩ folder t
    exact ⟨shown, hshown, hrun⟩
  · intro h
    have hplain : PlainNames entries := fun entry hentry part hpart =>
      Path.isPlain_iff.mpr (h entry hentry part hpart)
    refine ⟨keeps_writeFolder hplain folder t, ?_, ?_, ?_⟩
    · intro entry hentry
      exact ⟨Path.ofText_ne_nil entry.name, Path.place_join folder (hplain entry hentry)⟩
    · intro entry _ other _ hne heq
      exact hne (Path.ofText_injective (List.append_cancel_left heq))
    · intro hapart hempty
      have hback (hholdable : ∀ entry ∈ entries, IsHoldable folder (Path.ofText entry.name)) :=
        exists_writeFolder hplain hapart hempty hholdable
      refine ⟨⟨?_, ?_⟩, ?_⟩
      · intro hrun
        obtain ⟨t', hrun⟩ := hrun
        exact isHoldable_of_writeFolder hplain hempty hrun
      · intro hholdable
        obtain ⟨t', -, hrun, -⟩ := hback hholdable
        exact ⟨t', hrun⟩
      · intro t' hrun
        obtain ⟨t₁, sorted, hrun₁, hread⟩ :=
          hback (isHoldable_of_writeFolder hplain hempty hrun)
        rw [hrun] at hrun₁
        cases hrun₁
        exact ⟨sorted, hread⟩

/-- A tree with an empty folder below its root. -/
def emptyFolder : FileTree := ⟨[(["r"], .directory), ([], .directory)]⟩

theorem isEmptyDirectory_emptyFolder : IsEmptyDirectory emptyFolder ["r"] where
  resolves := by decide
  directory := by decide
  nothing := by
    intro names hne
    have hplace : Path.place ["r"] = ["r"] := by decide
    rw [hplace]
    exact List.lookup_eq_none_iff.mpr (by simp [emptyFolder, hne])

/-- The directory `a` comes before `a-b`, but `a-b` comes before what is in the directory. -/
def hyphenAndSlash : List Entry := [⟨"a/b", [1]⟩, ⟨"a-b", [2]⟩]

/-- A name with nothing between two slashes, after a plain one. -/
def doubleSlash : List Entry := [⟨"a", [1]⟩, ⟨"b//c", [2]⟩]

theorem writeFolder_readFolder_hyphenAndSlash :
    (∃ entry ∈ doubleSlash, writeFolder ["r"] doubleSlash emptyFolder =
      .error (.malformed (.entryName entry.name)) emptyFolder) ∧
    ∃ t' sorted, writeFolder ["r"] hyphenAndSlash emptyFolder = .ok () t' ∧
      readFolder t' ["r"] = .ok ⟨Path.text ["r"], sorted⟩ ∧ sorted.Perm hyphenAndSlash ∧
      sorted.Pairwise fun a b => Utf8.encode a.name < Utf8.encode b.name := by
  constructor
  · exact (writeFolder_readFolder ["r"] doubleSlash emptyFolder).1 (by decide)
  · have hall := (writeFolder_readFolder ["r"] hyphenAndSlash emptyFolder).2 (by decide)
    have hapart : StandApart hyphenAndSlash := by
      refine ⟨by decide, fun entry hentry other hother h => ?_⟩
      obtain ⟨rest, hrest⟩ := h
      have hlists := congrArg String.toList hrest
      simp only [hyphenAndSlash, List.mem_cons, List.not_mem_nil, or_false] at hentry hother
      rcases hentry with rfl | rfl <;> rcases hother with rfl | rfl <;> simp at hlists
    obtain ⟨hiff, hback⟩ := hall.2.2.2 hapart isEmptyDirectory_emptyFolder
    obtain ⟨t', hrun⟩ := hiff.mpr (by decide)
    obtain ⟨sorted, hsorted⟩ := hback t' hrun
    exact ⟨t', sorted, hrun, hsorted⟩

/-! ### Names that no file can have -/

/-- A name of equal letters. -/
def letters (n : Nat) : String := String.ofList (List.replicate n 'a')

theorem ofText_letters (n : Nat) : Path.ofText (letters n) = [letters n] := by
  refine Path.ofText_eq_iff.mpr ⟨List.cons_ne_nil _ [], ?_, by simp [Path.text]⟩
  intro part hpart hslash
  rw [List.mem_singleton.mp hpart, letters, String.toList_ofList] at hslash
  simpa using List.eq_of_mem_replicate hslash

theorem length_encode_letters (n : Nat) : (Utf8.encode (letters n)).length = n := by
  have hletter : Utf8.encodeChar 'a' = [97] := by decide
  simp [letters, Utf8.encode, List.length_flatMap, hletter]

theorem isPlain_letters {n : Nat} (hn : 2 < n) : Path.IsPlain (letters n) := by
  have hne {name : String} (hname : (Utf8.encode name).length ≤ 2) : letters n ≠ name := by
    intro h
    rw [← h, length_encode_letters] at hname
    omega
  exact Path.isPlain_iff.mpr ⟨hne (by decide), hne (by decide), hne (by decide)⟩

theorem not_isHoldable_letters {n : Nat} (hn : maxNameBytes < n) (folder : Path) :
    ¬IsHoldable folder (Path.ofText (letters n)) := by
  intro h
  have hname : isName (letters n) := h.2 _ (by rw [ofText_letters]; exact List.mem_cons_self)
  rw [isName, length_encode_letters, decide_eq_true_eq] at hname
  omega

/-- A name of equal parts. -/
def parts (n : Nat) : String := Path.text (List.replicate n "a")

theorem ofText_parts {n : Nat} (hn : 0 < n) : Path.ofText (parts n) = List.replicate n "a" := by
  apply Path.ofText_text
  · simpa using Nat.ne_of_gt hn
  · intro part hpart
    rw [List.eq_of_mem_replicate hpart]
    decide

theorem isPlain_parts {n : Nat} (hn : 0 < n) :
    ∀ part ∈ Path.ofText (parts n), Path.IsPlain part := by
  rw [ofText_parts hn]
  intro part hpart
  rw [List.eq_of_mem_replicate hpart]
  decide

theorem not_isHoldable_parts {n : Nat} (hn : maxPathBytes + 1 < n) (folder : Path) :
    ¬IsHoldable folder (Path.ofText (parts n)) := by
  intro h
  have hlength := h.length_le
  rw [ofText_parts (by omega), Path.join_eq, List.length_append, List.length_replicate] at hlength
  omega

/-- An entry of the name cannot be written into an empty folder, though its name is plain and it is the
only entry. -/
def IsRefused (name : String) : Prop :=
  (∀ part ∈ Path.ofText name, Path.IsPlain part) ∧ StandApart [⟨name, [1]⟩] ∧
    IsEmptyDirectory emptyFolder ["r"] ∧
    ¬∃ t', writeFolder ["r"] [⟨name, [1]⟩] emptyFolder = .ok () t'

theorem isRefused_of_not_isHoldable {name : String}
    (hplain : ∀ part ∈ Path.ofText name, Path.IsPlain part)
    (hbad : ¬IsHoldable ["r"] (Path.ofText name)) : IsRefused name := by
  refine ⟨hplain, standApart_singleton _, isEmptyDirectory_emptyFolder, fun hrun => ?_⟩
  obtain ⟨t', hrun⟩ := hrun
  have hnames : PlainNames [⟨name, [1]⟩] := by
    intro entry hentry
    rw [List.mem_singleton.mp hentry]
    exact hplain
  exact hbad (isHoldable_of_writeFolder hnames isEmptyDirectory_emptyFolder hrun ⟨name, [1]⟩
    (List.mem_singleton_self _))

/-- A plain name is refused if it holds a NUL, if it is too long for a directory, or if it has so many
parts that the path is too long. -/
theorem plain_names_refused :
    IsRefused "a\x00b" ∧ IsRefused (letters 256) ∧ IsRefused (parts 4097) := by
  refine ⟨?_, ?_, ?_⟩
  · exact isRefused_of_not_isHoldable (by decide) (by decide)
  · refine isRefused_of_not_isHoldable ?_ (not_isHoldable_letters (by decide) ["r"])
    rw [ofText_letters]
    exact List.forall_mem_singleton.mpr (isPlain_letters (by decide))
  · exact isRefused_of_not_isHoldable (isPlain_parts (by decide))
      (not_isHoldable_parts (by decide) ["r"])

end ClassPatch.Storage
