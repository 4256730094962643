import Mathlib
import ClassPatch.Proofs.Storage.FileTree
import ClassPatch.Storage.Folder

/-!
# Where the entries of an artifact are written

A name that is not plain is refused before anything is written. Entries with plain names are written
one after the other, each to a place of its own strictly below the folder, and the directories that
are made for them lie on the ways to these places. That holds for every tree, and also for runs that
fail.
-/

namespace ClassPatch.Storage

open FileTree Success Text

/-! ## Names of entries -/

theorem entryPath_of_isPlain {name : String} (h : ∀ part ∈ Path.ofText name, Path.IsPlain part) :
    entryPath name = .ok (Path.ofText name) := by
  unfold entryPath
  apply if_neg
  rw [List.any_eq_true]
  rintro ⟨part, hpart, hbad⟩
  obtain ⟨hstays, hback⟩ := h part hpart
  simp [hstays, hback] at hbad

theorem entryPath_of_not_isPlain {name part : String} (hpart : part ∈ Path.ofText name)
    (h : ¬Path.IsPlain part) : entryPath name = .error (.malformed (.entryName name)) := by
  unfold entryPath
  apply if_pos
  rw [List.any_eq_true]
  refine ⟨part, hpart, ?_⟩
  unfold Path.IsPlain at h
  cases hstays : Path.stays part with
  | true => rfl
  | false => simpa [hstays] using h

/-- A name that is not plain stops the writing before it starts, and the error shows such a name. -/
theorem writeFolder_of_not_isPlain {entries : List Entry}
    (h : ∃ entry ∈ entries, ∃ part ∈ Path.ofText entry.name, ¬Path.IsPlain part) (folder : Path)
    (t : FileTree) :
    ∃ entry ∈ entries, (∃ part ∈ Path.ofText entry.name, ¬Path.IsPlain part) ∧
      writeFolder folder entries t = .error (.malformed (.entryName entry.name)) t := by
  unfold writeFolder
  cases hpaths : entries.mapM fun entry => entryPath entry.name with
  | error e =>
    obtain ⟨entry, hentry, hfail⟩ := except_mapM_eq_error hpaths
    by_cases hplain : ∀ part ∈ Path.ofText entry.name, Path.IsPlain part
    · rw [entryPath_of_isPlain hplain] at hfail
      cases hfail
    · obtain ⟨part, hpart, hbad⟩ := not_forall₂.mp hplain
      rw [entryPath_of_not_isPlain hpart hbad] at hfail
      cases hfail
      exact ⟨entry, hentry, ⟨part, hpart, hbad⟩, rfl⟩
  | ok paths =>
    obtain ⟨entry, hentry, part, hpart, hbad⟩ := h
    obtain ⟨path, hpath⟩ := exists_except_mapM.mp ⟨paths, hpaths⟩ entry hentry
    rw [entryPath_of_not_isPlain hpart hbad] at hpath
    cases hpath

/-- The entries have plain names only. -/
def PlainNames (entries : List Entry) : Prop :=
  ∀ entry ∈ entries, ∀ part ∈ Path.ofText entry.name, Path.IsPlain part

/-- Entries with plain names are written one after the other, each to the path of its name. -/
theorem writeFolder_of_plainNames {entries : List Entry} (h : PlainNames entries) (folder : Path) :
    writeFolder folder entries =
      entries.forM fun entry => writeBelow folder (Path.ofText entry.name) entry.data := by
  have hpaths : (entries.mapM fun entry => entryPath entry.name) =
      .ok (entries.map fun entry => Path.ofText entry.name) := by
    rw [except_mapM, List.forall₂_map_right_iff, List.forall₂_same]
    exact fun entry hentry => entryPath_of_isPlain (h entry hentry)
  unfold writeFolder
  rw [hpaths]
  dsimp only
  rw [← List.map_prod_right_eq_zip, List.forM_eq_forM, List.forM_map]
  rfl

/-! ## Where entries are written -/

/-- The paths of entries within their folder. -/
def entryPaths (entries : List Entry) : List Path := entries.map fun entry => Path.ofText entry.name

/-- The names lead to one of the paths, but not to its end. -/
def IsStartOf (paths : List Path) (names : Path) : Prop :=
  ∃ path ∈ paths, names <+: path ∧ names ≠ path

/-- The places of the directories that may have to be made: those on the way to the folder, and
those below it on the way to an entry. -/
def IsOnWay (folder : Path) (entries : List Entry) (place : Path) : Prop :=
  (∃ front, front <+: folder ∧ place = Path.place front) ∨
    ∃ names, names ≠ [] ∧ IsStartOf (entryPaths entries) names ∧ place = folder.place ++ names

/-- The place of an entry, with the data of the entry. -/
def IsPlaceOf (folder : Path) (entries : List Entry) (place : Path) (data : List UInt8) : Prop :=
  ∃ entry ∈ entries, place = folder.place ++ Path.ofText entry.name ∧ data = entry.data

section

variable {folder path : Path} {data : List UInt8}

/-- What stands before the last name below a folder is on the way to the folder or below it. -/
theorem place_before_last (hplain : ∀ name ∈ path, Path.IsPlain name) (hne : path ≠ [])
    {front : Path} (h : front <+: (folder.join path).dropLast) :
    front <+: folder ∨ ∃ names, names ≠ [] ∧ names <+: path ∧ names ≠ path ∧
      Path.place front = folder.place ++ names := by
  obtain ⟨hfront, hproper⟩ := (Path.prefix_dropLast_iff (Path.join_ne_nil hne folder)).mp h
  rcases Path.prefix_join_cases hfront with hfolder | ⟨names, hnames, hpre, rfl⟩
  · exact .inl hfolder
  · refine .inr ⟨names, hnames, hpre, fun heq => hproper (by rw [heq]), ?_⟩
    exact Path.place_join folder fun name hname => hplain name (hpre.mem hname)

variable {ways : Path → Prop} {targets : Path → List UInt8 → Prop}

theorem keeps_writeBelow (hplain : ∀ name ∈ path, Path.IsPlain name) (hne : path ≠ [])
    (hfolder : ∀ front, front <+: folder → ways (Path.place front))
    (hbelow : ∀ names, names ≠ [] → names <+: path → names ≠ path → ways (folder.place ++ names))
    (htarget : targets (folder.place ++ path) data) :
    Keeps (Edits ways targets) (writeBelow folder path data) := by
  unfold writeBelow
  refine Keeps.bind (Edits.keeps_makeDirectories fun front hfront => ?_) fun _ => ?_
  · have hbefore := hfront.trans (Path.parent_prefix_dropLast (folder.join path))
    rcases place_before_last hplain hne hbefore with
      hway | ⟨names, hnames, hpre, hproper, hplace⟩
    · exact hfolder front hway
    · rw [hplace]
      exact hbelow names hnames hpre hproper
  · apply Edits.keeps_writeFile
    rw [Path.place_join folder hplain]
    exact htarget

end

/-- Entries with plain names are written to their places, and only directories on the ways there are
made. -/
theorem keeps_writeFolder {entries : List Entry} (h : PlainNames entries) (folder : Path) :
    Keeps (Edits (IsOnWay folder entries) (IsPlaceOf folder entries))
      (writeFolder folder entries) := by
  rw [writeFolder_of_plainNames h folder]
  apply Keeps.forM_of_mem
  intro entry hentry
  apply keeps_writeBelow (h entry hentry) (Path.ofText_ne_nil entry.name)
  · intro front hfront
    exact .inl ⟨front, hfront, rfl⟩
  · intro names hnames hpre hproper
    have hstart := List.mem_map_of_mem (f := fun entry => Path.ofText entry.name) hentry
    exact .inr ⟨names, hnames, ⟨_, hstart, hpre, hproper⟩, rfl⟩
  · exact ⟨entry, hentry, rfl, rfl⟩

end ClassPatch.Storage
