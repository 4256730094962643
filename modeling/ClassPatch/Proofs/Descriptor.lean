import Mathlib
import ClassPatch.Descriptor

/-!
# Descriptors are read back

A text is read as a type or a descriptor exactly if it is the written form of that type or
descriptor and the names of classes in it are not empty and do not hold the character that ends
them. Reading takes one type off the head of a text, so what follows it stays as it is.
-/

namespace ClassPatch

/-! ## Cutting texts -/

/-- A text is cut at the first occurrence of a character. -/
theorem takeWhile_eq_and_drop_eq {c : Char} {text front back : List Char} :
    text.takeWhile (· != c) = front ∧ text.drop front.length = c :: back ↔
      c ∉ front ∧ text = front ++ c :: back := by
  constructor
  · intro h
    obtain ⟨rfl, hback⟩ := h
    refine ⟨fun hmem => ?_, ?_⟩
    · simpa using List.mem_takeWhile_imp hmem
    · conv => lhs; rw [← List.take_append_drop (text.takeWhile (· != c)).length text]
      rw [hback, ← List.prefix_iff_eq_take.mp (List.takeWhile_prefix _)]
  · intro h
    obtain ⟨hmem, rfl⟩ := h
    refine ⟨?_, List.drop_left⟩
    have hfront : ∀ d ∈ front, (d != c) = true := by
      intro d hd
      rw [bne_iff_ne]
      rintro rfl
      exact hmem hd
    simp [List.takeWhile_append_of_pos hfront]

/-- What is left after the cut starts with the character, if the text holds it. -/
theorem drop_takeWhile_cases (c : Char) (text : List Char) :
    text.drop (text.takeWhile (· != c)).length = [] ∨
      ∃ back, text.drop (text.takeWhile (· != c)).length = c :: back := by
  induction text with
  | nil => exact .inl rfl
  | cons d text ih =>
    by_cases hd : d = c
    · subst hd
      exact .inr ⟨text, by simp⟩
    · rw [List.takeWhile_cons_of_pos (by simpa using hd), List.length_cons, List.drop_succ_cons]
      exact ih

/-! ## Types -/

namespace FieldType

/-- Every class name in a type can be told from what follows it. -/
def Readable : FieldType → Prop
  | object name => name.toList ≠ [] ∧ ';' ∉ name.toList
  | array component => component.Readable
  | _ => True

/-- The first character of a type tells it from the end of the parameters and from no result. -/
theorem exists_chars_eq_cons (type : FieldType) :
    ∃ c rest, type.chars = c :: rest ∧ c ≠ ')' ∧ c ≠ 'V' := by
  cases type <;> exact ⟨_, _, rfl, by decide, by decide⟩

/-- A type is read from the head of a text that starts with it. -/
theorem read?_chars {type : FieldType} (h : type.Readable) (rest : List Char) :
    read? (type.chars ++ rest) = some (type, rest) := by
  induction type with
  | object name =>
    obtain ⟨hne, hend⟩ := h
    have hname : (name.toList ++ ';' :: rest).takeWhile (· != ';') = name.toList := by
      rw [List.takeWhile_append_of_pos]
      · simp
      · intro c hc
        simp only [bne_iff_ne, ne_eq]
        rintro rfl
        exact hend hc
    simp [chars, read?, hname, hne]
  | array component ih =>
    have hcomponent := ih h
    simp [chars, read?, hcomponent]
  | _ => simp [chars, read?]

/-- The head of a text that a type is read from is the type's written form. -/
theorem readable_of_read? {text rest : List Char} {type : FieldType}
    (h : read? text = some (type, rest)) : type.Readable ∧ text = type.chars ++ rest := by
  -- one case for each way through `read?`: the name of a class, the component of an array, the
  -- refusals, and the letters of the primitive types
  fun_induction read? text generalizing type with
  | case11 tail name stop after hdrop =>
    rename_i hname
    cases h
    have hstop := drop_takeWhile_cases ';' tail
    rw [hdrop] at hstop
    obtain ⟨back, hback⟩ := hstop.resolve_left (List.cons_ne_nil _ _)
    obtain ⟨hend, htail⟩ := takeWhile_eq_and_drop_eq.mp ⟨rfl, hdrop.trans hback⟩
    obtain ⟨rfl, rfl⟩ := List.cons.inj hback
    refine ⟨⟨?_, ?_⟩, ?_⟩
    · simpa using hname
    · rwa [String.toList_ofList]
    · rw [chars, String.toList_ofList, List.cons_append, List.cons_append, List.append_assoc]
      exact congrArg _ htail
  | case12 tail component after hread ih =>
    cases h
    obtain ⟨hcomponent, htail⟩ := ih hread
    exact ⟨hcomponent, congrArg _ htail⟩
  | case9 | case10 | case13 | case14 => cases h
  | _ =>
    cases h
    exact ⟨trivial, rfl⟩

theorem read?_eq_some {text rest : List Char} {type : FieldType} :
    read? text = some (type, rest) ↔ type.Readable ∧ text = type.chars ++ rest := by
  constructor
  · exact readable_of_read?
  · intro h
    obtain ⟨htype, rfl⟩ := h
    exact read?_chars htype rest

/-- A text is read as a type that makes up the whole of it. -/
theorem parse?_eq_some {text : String} {type : FieldType} :
    parse? text = some type ↔ type.text = text ∧ type.Readable := by
  have htext : type.text = text ↔ text.toList = type.chars ++ [] := by
    rw [FieldType.text, ← String.toList_inj, String.toList_ofList, List.append_nil, eq_comm]
  rw [htext, and_comm, ← read?_eq_some]
  unfold parse?
  split
  · rename_i hfound
    simp [hfound]
  · rename_i hother
    constructor
    · intro h
      cases h
    · intro h
      exact absurd h (hother type)

end FieldType

/-! ## Methods -/

namespace MethodDescriptor

open FieldType

/-- Every class name in a descriptor can be told from what follows it. -/
structure Readable (d : MethodDescriptor) : Prop where
  params : ∀ type ∈ d.params, type.Readable
  ret : ∀ type, d.ret = .value type → type.Readable

theorem readParams?_chars {params : List FieldType} (h : ∀ type ∈ params, type.Readable)
    (acc : List FieldType) (rest : List Char) (bound : Nat)
    (hbound : (params.flatMap FieldType.chars).length ≤ bound) :
    readParams? acc bound (params.flatMap FieldType.chars ++ ')' :: rest) =
      some (acc.reverse ++ params, rest) := by
  induction params generalizing acc bound with
  | nil => cases bound <;> simp [readParams?]
  | cons type params ih =>
    obtain ⟨htype, hparams⟩ := List.forall_mem_cons.mp h
    obtain ⟨c, tail, hchars, hclose, -⟩ := exists_chars_eq_cons type
    rw [List.flatMap_cons, List.length_append, hchars, List.length_cons] at hbound
    obtain ⟨bound, rfl⟩ : ∃ n, bound = n + 1 := ⟨bound - 1, by omega⟩
    -- a parameter takes a character at least, so the bound is left for the others
    have hrest := ih hparams (type :: acc) bound (by omega)
    have hread := read?_chars htype (params.flatMap FieldType.chars ++ ')' :: rest)
    rw [List.flatMap_cons, List.append_assoc]
    rw [hchars] at hread ⊢
    rw [List.cons_append] at hread ⊢
    rw [readParams?, hread]
    · simp [hrest]
    · intro _ heq
      exact hclose (List.head_eq_of_cons_eq heq)

theorem readRet?_chars {ret : ReturnType} (h : ∀ type, ret = .value type → type.Readable) :
    readRet? ret.chars = some ret := by
  cases ret with
  | void => rfl
  | value type =>
    obtain ⟨c, tail, hchars, -, hvoid⟩ := exists_chars_eq_cons type
    have hread := read?_chars (h type rfl) []
    rw [List.append_nil] at hread
    show readRet? type.chars = _
    unfold readRet?
    split
    · rename_i heq
      rw [hchars] at heq
      exact absurd (List.head_eq_of_cons_eq heq) hvoid
    · rw [hread]

/-- The parameters that are read are written one after the other, up to the parenthesis. -/
theorem readable_of_readParams? {acc params : List FieldType} {bound : Nat} {text rest : List Char}
    (h : readParams? acc bound text = some (params, rest)) :
    ∃ new, params = acc.reverse ++ new ∧ (∀ type ∈ new, type.Readable) ∧
      text = new.flatMap FieldType.chars ++ ')' :: rest := by
  fun_induction readParams? acc bound text with
  | case1 acc bound after =>
    cases h
    exact ⟨[], by simp, by simp, rfl⟩
  | case2 | case4 => cases h
  | case3 acc bound text hopen type after hread ih =>
    obtain ⟨htype, rfl⟩ := read?_eq_some.mp hread
    obtain ⟨new, rfl, hnew, rfl⟩ := ih h
    refine ⟨type :: new, by simp, List.forall_mem_cons.mpr ⟨htype, hnew⟩, ?_⟩
    rw [List.flatMap_cons, List.append_assoc]

/-- The result that makes up a text is written as that text. -/
theorem readRet?_eq_some {text : List Char} {ret : ReturnType} :
    readRet? text = some ret ↔ text = ret.chars ∧ ∀ type, ret = .value type → type.Readable := by
  constructor
  · intro h
    unfold readRet? at h
    split at h
    · cases h
      exact ⟨rfl, by simp⟩
    · split at h
      · rename_i type hread
        cases h
        obtain ⟨htype, htext⟩ := read?_eq_some.mp hread
        rw [List.append_nil] at htext
        refine ⟨htext, fun other hother => ?_⟩
        cases hother
        exact htype
      · cases h
  · intro h
    obtain ⟨rfl, hret⟩ := h
    exact readRet?_chars hret

/-- A text is read as a descriptor that makes up the whole of it. -/
theorem parse?_eq_some {text : String} {d : MethodDescriptor} :
    parse? text = some d ↔ d.text = text ∧ d.Readable := by
  have htext : d.text = text ↔ text.toList = d.chars := by
    rw [MethodDescriptor.text, ← String.toList_inj, String.toList_ofList, eq_comm]
  rw [htext]
  constructor
  · intro h
    unfold parse? at h
    split at h
    · rename_i rest hopen
      split at h
      · rename_i params after hparams
        obtain ⟨ret, hret, rfl⟩ := Option.map_eq_some_iff.mp h
        obtain ⟨new, rfl, hnew, rfl⟩ := readable_of_readParams? hparams
        obtain ⟨rfl, hvalue⟩ := readRet?_eq_some.mp hret
        exact ⟨hopen, hnew, hvalue⟩
      · cases h
    · cases h
  · intro h
    obtain ⟨hchars, hd⟩ := h
    have hparams := readParams?_chars hd.params [] d.ret.chars
      (d.params.flatMap FieldType.chars ++ ')' :: d.ret.chars).length (by simp)
    unfold parse?
    rw [hchars, chars, List.cons_append]
    simp only [hparams, readRet?_chars hd.ret, List.reverse_nil, List.nil_append]
    rfl

/-- What a descriptor is written as is read as the descriptor. -/
theorem parse_text {d : MethodDescriptor} (h : d.Readable) : parse d.text = .ok d := by
  rw [parse, parse?_eq_some.mpr ⟨rfl, h⟩]
  rfl

end MethodDescriptor

/-! ## What is accepted -/

/-- A reader that refuses a text by the text itself accepts the texts of certain values. -/
theorem elim_invalidDescriptor {α : Type} {read? : Option α} {text : String} {P : α → Prop}
    (hread : ∀ a, read? = some a ↔ P a) :
    (∀ a, read?.elim (.error (.invalidDescriptor text)) (.ok : α → Except Error α) = .ok a ↔ P a) ∧
      ∀ e, read?.elim (.error (.invalidDescriptor text)) (.ok : α → Except Error α) = .error e ↔
        e = .invalidDescriptor text ∧ ¬∃ a, P a := by
  cases read? with
  | none =>
    have hnone (a : α) : ¬P a := fun ha => nomatch (hread a).mpr ha
    simp [hnone, eq_comm]
  | some found =>
    have hfound := (hread found).mp rfl
    refine ⟨fun a => ?_, fun e => ?_⟩
    · rw [← hread a]
      simp
    · simp only [Option.elim_some, reduceCtorEq, false_iff, not_and, not_not]
      exact fun _ => ⟨found, hfound⟩

/-- A text is read as a type, or as a descriptor, exactly if it is written that way and all names of
classes in it can be told from what follows them. So the written form of readable types and
descriptors is their own, and all other texts are refused by the text. -/
theorem descriptor_parse_iff (text : String) :
    (∀ type, FieldType.parse text = .ok type ↔ type.text = text ∧ type.Readable) ∧
    (∀ e, FieldType.parse text = .error e ↔
      e = .invalidDescriptor text ∧ ¬∃ type : FieldType, type.text = text ∧ type.Readable) ∧
    (∀ d, MethodDescriptor.parse text = .ok d ↔ d.text = text ∧ d.Readable) ∧
    (∀ e, MethodDescriptor.parse text = .error e ↔
      e = .invalidDescriptor text ∧ ¬∃ d : MethodDescriptor, d.text = text ∧ d.Readable) := by
  have htypes (type : FieldType) :
      FieldType.parse? text = some type ↔ type.text = text ∧ type.Readable :=
    FieldType.parse?_eq_some
  have hmethods (d : MethodDescriptor) :
      MethodDescriptor.parse? text = some d ↔ d.text = text ∧ d.Readable :=
    MethodDescriptor.parse?_eq_some
  obtain ⟨htype, hnoType⟩ := elim_invalidDescriptor htypes
  obtain ⟨hmethod, hnoMethod⟩ := elim_invalidDescriptor hmethods
  exact ⟨htype, hnoType, hmethod, hnoMethod⟩

end ClassPatch
