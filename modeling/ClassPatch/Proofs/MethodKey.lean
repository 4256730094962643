import Mathlib
import ClassPatch.MethodKey
import ClassPatch.Proofs.Descriptor

/-!
# Parts of method keys

A key has parts if it is written from them: a key is cut at its first semicolon and at the first
parenthesis after that, so owner and name are the texts that do not hold the character that ends
them.
-/

namespace ClassPatch

/-- A descriptor starts with a parenthesis. -/
theorem MethodDescriptor.exists_of_parse? {text : String} {d : MethodDescriptor}
    (h : MethodDescriptor.parse? text = some d) : ∃ rest, text.toList = '(' :: rest := by
  unfold MethodDescriptor.parse? at h
  split at h
  · exact ⟨_, ‹_›⟩
  · cases h

namespace MethodKey

/-- Owner, name and descriptor of a method, which can be told apart in its key. -/
structure Parts.WellFormed (p : Parts) : Prop where
  owner_ne : p.owner ≠ ""
  owner_end : ';' ∉ p.owner.toList
  name_ne : p.name ≠ ""
  name_end : '(' ∉ p.name.toList
  descriptor : ∃ d, MethodDescriptor.parse? p.descriptor = some d

/-- The key that is written from the parts. -/
def Parts.key (p : Parts) : MethodKey := ofParts p.owner p.name p.descriptor

theorem Parts.key_eq {p : Parts} {key : MethodKey} : p.key = key ↔
    key.text.toList =
      'L' :: (p.owner.toList ++ ';' :: (p.name.toList ++ p.descriptor.toList)) := by
  have htext : p.key.text.toList =
      'L' :: (p.owner.toList ++ ';' :: (p.name.toList ++ p.descriptor.toList)) := by
    simp [Parts.key, ofParts]
  rw [← htext, String.toList_inj]
  constructor
  · rintro rfl
    rfl
  · intro h
    cases key
    exact congrArg MethodKey.mk h.symm

/-- Cutting a key is finding texts that it is written from. -/
theorem parts?_eq_some {key : MethodKey} {p : Parts} :
    key.parts? = some p ↔ p.WellFormed ∧ p.key = key := by
  rw [Parts.key_eq]
  constructor
  · intro h
    unfold parts? at h
    split at h
    · rename_i rest htext
      dsimp only at h
      split at h
      · cases h
      rename_i hne
      simp only [Bool.or_eq_true, List.isEmpty_iff, not_or] at hne
      obtain ⟨⟨hmember, howner⟩, hname⟩ := hne
      obtain ⟨tail, htail⟩ := (drop_takeWhile_cases ';' rest).resolve_left hmember
      obtain ⟨hownerEnd, hrest⟩ := takeWhile_eq_and_drop_eq.mp ⟨rfl, htail⟩
      simp only [htail, List.drop_succ_cons, List.drop_zero] at hname h
      obtain ⟨d, hd, rfl⟩ := Option.map_eq_some_iff.mp h
      -- the descriptor is not empty, so the name ends where a parenthesis stands
      obtain ⟨more, hmore⟩ := MethodDescriptor.exists_of_parse? hd
      rw [String.toList_ofList] at hmore
      obtain ⟨hnameEnd, htailParts⟩ := takeWhile_eq_and_drop_eq.mp ⟨rfl, hmore⟩
      refine ⟨⟨?_, ?_, ?_, ?_, d, hd⟩, ?_⟩
      · rwa [Ne, ← String.toList_eq_nil_iff, String.toList_ofList]
      · rwa [String.toList_ofList]
      · rwa [Ne, ← String.toList_eq_nil_iff, String.toList_ofList]
      · rwa [String.toList_ofList]
      · simp only [String.toList_ofList, hmore, ← htailParts, ← hrest, htext]
    · cases h
  · intro h
    obtain ⟨hp, htext⟩ := h
    obtain ⟨d, hd⟩ := hp.descriptor
    obtain ⟨more, hmore⟩ := MethodDescriptor.exists_of_parse? hd
    obtain ⟨howner, hmember⟩ := takeWhile_eq_and_drop_eq.mpr
      ⟨hp.owner_end, (rfl : p.owner.toList ++ ';' :: (p.name.toList ++ p.descriptor.toList) = _)⟩
    obtain ⟨hname, hdescriptor⟩ := takeWhile_eq_and_drop_eq.mpr
      ⟨hp.name_end, (rfl : p.name.toList ++ '(' :: more = _)⟩
    rw [← hmore] at hname hdescriptor
    unfold parts?
    rw [htext]
    simp [howner, hmember, hname, hdescriptor, hd, hp.owner_ne, hp.name_ne]

/-- The parts of a key are known to be well-formed, and a key has no others. -/
theorem parts_eq_ok {key : MethodKey} {p : Parts} :
    key.parts = .ok p ↔ p.WellFormed ∧ p.key = key := by
  rw [← parts?_eq_some, parts]
  cases key.parts? <;> simp

/-- A key that is not written from well-formed parts is refused by its text. -/
theorem parts_eq_error {key : MethodKey} (h : ∀ p : Parts, p.WellFormed → p.key ≠ key) :
    key.parts = .error (.invalidDescriptor key.text) := by
  rw [parts]
  cases hparts : key.parts? with
  | none => rfl
  | some p =>
    obtain ⟨hp, hkey⟩ := parts?_eq_some.mp hparts
    exact absurd hkey (h p hp)

end MethodKey

end ClassPatch
