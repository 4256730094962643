import Mathlib
import ClassPatch.Storage.Path
import ClassPatch.Text.Utf8

/-!
# Paths and the places they lead to

A text is that of the path that it writes, so texts and their paths tell the same entries apart.
Followed name by name, a path leads to a place; plain names go down from a place by what they say,
and so the place of a plain path below a folder is the place of the folder with the path at its end.
-/

namespace ClassPatch.Storage

open Text

namespace Path

/-! ## Texts and the paths they write -/

theorem segments_slash (cs : List Char) : segments ('/' :: cs) = [] :: segments cs := by
  rw [segments, if_pos rfl]

theorem segments_ne_nil (cs : List Char) : segments cs ≠ [] := by
  cases cs with
  | nil => simp [segments]
  | cons c cs =>
    unfold segments
    split
    · simp
    · split <;> simp

theorem segments_cons {c : Char} (h : c ≠ '/') (cs : List Char) :
    ∃ first more, segments cs = first :: more ∧ segments (c :: cs) = (c :: first) :: more := by
  rw [segments, if_neg h]
  cases hsegments : segments cs with
  | nil => exact absurd hsegments (segments_ne_nil cs)
  | cons first more => exact ⟨first, more, rfl, rfl⟩

theorem intercalate_segments (cs : List Char) : ['/'].intercalate (segments cs) = cs := by
  induction cs with
  | nil => rfl
  | cons c cs ih =>
    by_cases hslash : c = '/'
    · subst hslash
      rw [segments_slash]
      cases hsegments : segments cs with
      | nil => exact absurd hsegments (segments_ne_nil cs)
      | cons first more =>
        rw [hsegments] at ih
        rw [List.intercalate_cons_cons, ih]
        rfl
    · obtain ⟨first, more, hsegments, hcons⟩ := segments_cons hslash cs
      rw [hsegments] at ih
      rw [hcons, ← ih]
      cases more with
      | nil => simp
      | cons next more => simp [List.intercalate_cons_cons]

theorem segments_of_not_mem {segment : List Char} (h : '/' ∉ segment) :
    segments segment = [segment] := by
  induction segment with
  | nil => rfl
  | cons c segment ih =>
    rw [List.mem_cons, not_or] at h
    obtain ⟨hc, hrest⟩ := h
    rw [segments, if_neg (Ne.symm hc), ih hrest]

theorem segments_append_slash {segment : List Char} (h : '/' ∉ segment) (cs : List Char) :
    segments (segment ++ '/' :: cs) = segment :: segments cs := by
  induction segment with
  | nil => exact segments_slash cs
  | cons c segment ih =>
    rw [List.mem_cons, not_or] at h
    obtain ⟨hc, hrest⟩ := h
    rw [List.cons_append, segments, if_neg (Ne.symm hc), ih hrest]

theorem segments_intercalate {parts : List (List Char)} (hne : parts ≠ [])
    (h : ∀ part ∈ parts, '/' ∉ part) : segments (['/'].intercalate parts) = parts := by
  induction parts with
  | nil => exact absurd rfl hne
  | cons part parts ih =>
    obtain ⟨hpart, hparts⟩ := List.forall_mem_cons.mp h
    cases parts with
    | nil => simpa using segments_of_not_mem hpart
    | cons next parts =>
      rw [List.intercalate_cons_cons, List.append_assoc]
      exact (segments_append_slash hpart _).trans (congrArg _ (ih (by simp) hparts))

theorem not_mem_of_mem_segments {part cs : List Char} (h : part ∈ segments cs) : '/' ∉ part := by
  induction cs generalizing part with
  | nil =>
    obtain rfl := List.mem_singleton.mp h
    simp
  | cons c cs ih =>
    by_cases hslash : c = '/'
    · subst hslash
      rw [segments_slash] at h
      rcases List.mem_cons.mp h with rfl | h
      · simp
      · exact ih h
    · obtain ⟨first, more, hsegments, hcons⟩ := segments_cons hslash cs
      rw [hsegments] at ih
      rw [hcons] at h
      rcases List.mem_cons.mp h with rfl | h
      · have hfirst := ih List.mem_cons_self
        simp [hfirst, Ne.symm hslash]
      · exact ih (List.mem_cons_of_mem first h)

/-- A text is that of the path that it writes. -/
@[simp] theorem text_ofText (text : String) : (ofText text).text = text := by
  apply String.toList_inj.mp
  unfold ofText Path.text
  rw [String.toList_intercalate, List.map_map]
  have hlists : String.toList ∘ String.ofList = id := funext fun _ => String.toList_ofList
  rw [hlists, List.map_id]
  exact intercalate_segments text.toList

theorem ofText_ne_nil (text : String) : ofText text ≠ [] := by
  unfold ofText
  simp [segments_ne_nil]

/-- The path that a text writes is the one path of names without slashes that has this text. -/
theorem ofText_eq_iff {text : String} {path : Path} :
    ofText text = path ↔ path ≠ [] ∧ (∀ name ∈ path, '/' ∉ name.toList) ∧ path.text = text := by
  constructor
  · rintro rfl
    refine ⟨ofText_ne_nil text, fun name hname => ?_, text_ofText text⟩
    obtain ⟨part, hpart, rfl⟩ := List.mem_map.mp hname
    rw [String.toList_ofList]
    exact not_mem_of_mem_segments hpart
  · rintro ⟨hne, hslash, rfl⟩
    unfold ofText Path.text
    rw [String.toList_intercalate]
    have hparts : ∀ part ∈ path.map String.toList, '/' ∉ part := by
      intro part hpart
      obtain ⟨name, hname, rfl⟩ := List.mem_map.mp hpart
      exact hslash name hname
    have hsegments := segments_intercalate (by simpa using hne) hparts
    show (segments (['/'].intercalate (path.map String.toList))).map String.ofList = path
    rw [hsegments, List.map_map]
    have hlists : String.ofList ∘ String.toList = id := funext fun _ => String.ofList_toList
    rw [hlists, List.map_id]

theorem ofText_text {path : Path} (hne : path ≠ []) (h : ∀ name ∈ path, '/' ∉ name.toList) :
    ofText path.text = path :=
  ofText_eq_iff.mpr ⟨hne, h, rfl⟩

theorem ofText_injective : Function.Injective ofText := by
  intro a b h
  rw [← text_ofText a, h, text_ofText]

/-- Between two parts of a path there is one slash. -/
theorem text_append {front back : Path} (hfront : front ≠ []) (hback : back ≠ []) :
    text (front ++ back) = text front ++ "/" ++ text back := by
  induction front with
  | nil => exact absurd rfl hfront
  | cons name front ih =>
    unfold Path.text at ih ⊢
    cases front with
    | nil =>
      obtain ⟨next, back, rfl⟩ := List.exists_cons_of_ne_nil hback
      simp [String.intercalate_cons_cons]
    | cons next front =>
      simp only [List.cons_append, String.intercalate_cons_cons] at ih ⊢
      rw [ih (by simp)]
      simp only [String.append_assoc]

/-- There is a slash between any two names of a path. -/
theorem length_le_length_encode_text (path : Path) :
    path.length ≤ (Utf8.encode (text path)).length + 1 := by
  induction path with
  | nil => simp
  | cons name path ih =>
    by_cases hnil : path = []
    · simp [hnil]
    · have htext : text (name :: path) = text [name] ++ "/" ++ text path :=
        text_append (List.cons_ne_nil name []) hnil
      have hslash : ("/".toList.flatMap Utf8.encodeChar).length = 1 := by decide
      rw [htext, List.length_cons]
      simp only [Utf8.encode, String.toList_append, List.flatMap_append, List.length_append] at ih ⊢
      omega

/-- A path that goes on from another one has its text, a slash and more. -/
theorem exists_text_eq_append {front path : Path} (h : front <+: path) (hne : front ≠ path)
    (hfront : front ≠ []) : ∃ more, path.text = front.text ++ "/" ++ more := by
  obtain ⟨back, rfl⟩ := h
  have hback : back ≠ [] := by
    intro hnil
    exact hne (by rw [hnil, List.append_nil])
  exact ⟨text back, text_append hfront hback⟩

/-- The text of the start of a path is not longer than that of the path. -/
theorem length_encode_text_le {front path : Path} (h : front <+: path) :
    (Utf8.encode front.text).length ≤ (Utf8.encode path.text).length := by
  by_cases hfront : front = []
  · subst hfront
    exact Nat.zero_le _
  by_cases hne : front = path
  · rw [hne]
  obtain ⟨more, hmore⟩ := exists_text_eq_append h hne hfront
  rw [hmore]
  simp only [Utf8.encode, String.toList_append, List.flatMap_append, List.length_append]
  omega

/-! ## Places -/

/-- The place that a path leads to from the root. -/
def place (path : Path) : Path := path.foldl step []

/-- A name that goes one directory down: it neither stays nor steps back. -/
def IsPlain (name : String) : Prop := stays name = false ∧ name ≠ back

instance : DecidablePred IsPlain := fun _ => inferInstanceAs (Decidable (_ ∧ _))

theorem isPlain_iff {name : String} : IsPlain name ↔ name ≠ "" ∧ name ≠ "." ∧ name ≠ ".." := by
  simp [IsPlain, stays, back, and_assoc]

theorem step_of_stays {name : String} (h : stays name) (directory : Path) :
    directory.step name = directory := by
  rw [step, if_pos h]

theorem step_of_isPlain {name : String} (h : IsPlain name) (directory : Path) :
    directory.step name = directory ++ [name] := by
  rw [step, if_neg (by simp [h.1]), if_neg h.2]

theorem place_append_of_stays {path names : Path} (h : ∀ name ∈ names, stays name) :
    place (path ++ names) = place path := by
  unfold place
  rw [List.foldl_append]
  generalize path.foldl step [] = directory
  induction names with
  | nil => rfl
  | cons name names ih =>
    rw [List.foldl_cons, step_of_stays (h name List.mem_cons_self)]
    exact ih fun other hother => h other (List.mem_cons_of_mem name hother)

theorem place_append_of_isPlain {path names : Path} (h : ∀ name ∈ names, IsPlain name) :
    place (path ++ names) = place path ++ names := by
  unfold place
  rw [List.foldl_append]
  generalize path.foldl step [] = directory
  induction names generalizing directory with
  | nil => simp
  | cons name names ih =>
    rw [List.foldl_cons, step_of_isPlain (h name List.mem_cons_self)]
    rw [ih (fun other hother => h other (List.mem_cons_of_mem name hother))]
    simp

/-! ## Paths below a folder -/

theorem join_eq (folder names : Path) : folder.join names = folder.join [] ++ names := by
  simp [join]

theorem join_ne_nil {names : Path} (hne : names ≠ []) (folder : Path) : folder.join names ≠ [] := by
  rw [join_eq]
  exact List.append_ne_nil_of_right_ne_nil _ hne

/-- What a folder loses when it is joined with names stays where it is. -/
theorem exists_join_append (folder : Path) :
    ∃ idle, folder = folder.join [] ++ idle ∧ ∀ name ∈ idle, stays name := by
  unfold join
  rw [List.append_nil]
  split
  · rename_i hlast
    refine ⟨[""], ?_, by simp [stays]⟩
    exact (List.dropLast_append_getLast? "" hlast).symm
  · exact ⟨[], by simp, by simp⟩

theorem place_join {names : Path} (folder : Path) (h : ∀ name ∈ names, IsPlain name) :
    (folder.join names).place = folder.place ++ names := by
  obtain ⟨idle, hidle, hstays⟩ := exists_join_append folder
  rw [join_eq, place_append_of_isPlain h]
  conv => rhs; rw [hidle, place_append_of_stays hstays]

theorem join_prefix_join (folder : Path) {names path : Path} (h : names <+: path) :
    folder.join names <+: folder.join path := by
  rw [join_eq folder names, join_eq folder path]
  exact (List.prefix_append_right_inj _).mpr h

theorem prefix_dropLast_iff {front path : Path} (hne : path ≠ []) :
    front <+: path.dropLast ↔ front <+: path ∧ front ≠ path := by
  obtain ⟨start, last, rfl⟩ := List.eq_nil_or_concat' path |>.resolve_left hne
  rw [List.dropLast_concat, List.prefix_concat_iff]
  constructor
  · intro h
    refine ⟨.inr h, ?_⟩
    rintro rfl
    have hlength := h.length_le
    simp at hlength
  · intro h
    exact h.1.resolve_left h.2

/-- Followed below a folder, a path first goes through the folder. -/
theorem prefix_join_cases {folder front path : Path} (h : front <+: folder.join path) :
    front <+: folder ∨ ∃ names, names ≠ [] ∧ names <+: path ∧ front = folder.join names := by
  obtain ⟨idle, hidle, -⟩ := exists_join_append folder
  have hfolder : folder.join [] <+: folder := ⟨idle, hidle.symm⟩
  rw [join_eq] at h
  rcases List.prefix_or_prefix_of_prefix h (List.prefix_append _ _) with hshort | hlong
  · exact .inl (hshort.trans hfolder)
  · obtain ⟨names, rfl⟩ := hlong
    by_cases hnames : names = []
    · subst hnames
      rw [List.append_nil]
      exact .inl hfolder
    · right
      exact ⟨names, hnames, (List.prefix_append_right_inj _).mp h, (join_eq folder names).symm⟩

/-- A path without its last name is its parent and what stays there. -/
theorem exists_parent_append (path : Path) :
    ∃ idle, path.dropLast = path.parent ++ idle ∧ ∀ name ∈ idle, stays name := by
  refine ⟨(path.dropLast.reverse.takeWhile stays).reverse, ?_, ?_⟩
  · unfold parent
    rw [← List.reverse_append, List.takeWhile_append_dropWhile, List.reverse_reverse]
  · intro name hname
    exact List.mem_takeWhile_imp (List.mem_reverse.mp hname)

/-- What stands before the last name of a path leads where its parent or the start of it leads. -/
theorem exists_prefix_parent {front path : Path} (h : front <+: path.dropLast) :
    ∃ start, start <+: path.parent ∧ place start = place front := by
  obtain ⟨idle, hidle, hstays⟩ := exists_parent_append path
  rw [hidle] at h
  rcases List.prefix_or_prefix_of_prefix h (List.prefix_append _ _) with hshort | hlong
  · exact ⟨front, hshort, rfl⟩
  · obtain ⟨names, rfl⟩ := hlong
    have hnames : names <+: idle := (List.prefix_append_right_inj _).mp h
    refine ⟨path.parent, List.prefix_rfl, (place_append_of_stays fun name hname => ?_).symm⟩
    exact hstays name (hnames.mem hname)

theorem parent_prefix_dropLast (path : Path) : path.parent <+: path.dropLast := by
  obtain ⟨idle, hidle, -⟩ := exists_parent_append path
  exact ⟨idle, hidle.symm⟩

end Path

end ClassPatch.Storage
