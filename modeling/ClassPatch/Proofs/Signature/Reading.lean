import Mathlib
import ClassPatch.Proofs.Signature.Grammar

/-!
# Class signatures are read back

What the grammar derives is read as what it declares, with a bound of twice its length, except where
a type parameter without bounds is followed by one whose name starts like a type.
-/

namespace ClassPatch.ClassSignature

/-! ## Names -/

/-- A name is read up to the character that ends it. -/
theorem readName?_append {stops name rest : List Char} {c : Char} (hne : name ≠ [])
    (hname : ∀ d ∈ name, d ∉ stops) (hc : c ∈ stops) :
    readName? stops (name ++ c :: rest) = some (String.ofList name, c :: rest) := by
  have htake : (name ++ c :: rest).takeWhile (!stops.contains ·) = name := by
    rw [List.takeWhile_append_of_pos fun d hd => by simpa using hname d hd,
      List.takeWhile_cons_of_neg (by simpa using hc), List.append_nil]
  rw [readName?, htake, List.drop_left, if_neg (by simp [hne])]

theorem Identifier.not_mem {name : List Char} (h : Identifier name) {c : Char} (hc : c ∈ reserved) :
    c ∉ name :=
  fun hmem => h.not_reserved c hmem hc

/-- Of the characters that stand for something, packages hold the slash only. -/
theorem Package.not_reserved {package : List Char} (h : Package package) :
    ∀ c ∈ package, c ≠ '/' → c ∉ reserved := by
  induction h with
  | nil => exact List.forall_mem_nil _
  | @cons name rest hname _ ih =>
    intro c hc hslash
    rcases List.mem_append.mp hc with hc | hc
    · exact hname.not_reserved c hc
    · exact ih c ((List.mem_cons.mp hc).resolve_left hslash) hslash

/-- The name of a class is read with its packages. -/
theorem readName?_package {package name : List Char} {c : Char} (hpackage : Package package)
    (hname : Identifier name) (rest : List Char) (hc : c ∈ ['<', '.', ';']) :
    readName? ['<', '.', ';'] (package ++ name ++ c :: rest) =
      some (String.ofList (package ++ name), c :: rest) := by
  have hstops : ∀ d ∈ ['<', '.', ';'], d ≠ '/' ∧ d ∈ reserved := by
    simp [reserved]
  refine readName?_append (by simp [hname.ne_nil]) (fun d hd hstop => ?_) hc
  obtain ⟨hslash, hreserved⟩ := hstops d hstop
  rcases List.mem_append.mp hd with hd | hd
  · exact hpackage.not_reserved d hd hslash hreserved
  · exact hname.not_reserved d hd hreserved

/-! ## Types -/

theorem Class.exists_head {text : List Char} {type : ClassType} (h : Class text type) :
    ∃ rest, text = 'L' :: rest := by
  cases h
  exact ⟨_, rfl⟩

/-- The letters that start a reference type. -/
theorem Reference.exists_head {text : List Char} {type : TypeSignature} (h : Reference text type) :
    ∃ c rest, text = c :: rest ∧ (c = 'L' ∨ c = 'T' ∨ c = '[') := by
  cases h with
  | ofClass h =>
    obtain ⟨rest, rfl⟩ := h.exists_head
    exact ⟨'L', rest, rfl, .inl rfl⟩
  | «variable» => exact ⟨'T', _, rfl, .inr (.inl rfl)⟩
  | baseArray => exact ⟨'[', _, rfl, .inr (.inr rfl)⟩
  | array => exact ⟨'[', _, rfl, .inr (.inr rfl)⟩

theorem Nested.exists_head {outer : String} {args : List TypeArgument} {text : List Char}
    {type : ClassType} (h : Nested outer args text type) :
    ∃ c rest, text = c :: rest ∧ (c = '.' ∨ c = ';') := by
  cases h with
  | stop => exact ⟨';', _, rfl, .inr rfl⟩
  | cons => exact ⟨'.', _, rfl, .inl rfl⟩

theorem Nested.length_pos {outer : String} {args : List TypeArgument} {text : List Char}
    {type : ClassType} (h : Nested outer args text type) : 0 < text.length := by
  cases h <;> simp

theorem Class.length_pos {text : List Char} {type : ClassType} (h : Class text type) :
    0 < text.length := by
  cases h
  simp

theorem Reference.length_pos {text : List Char} {type : TypeSignature} (h : Reference text type) :
    0 < text.length := by
  obtain ⟨c, rest, rfl, -⟩ := h.exists_head
  simp

theorem Argument.length_pos {text : List Char} {arg : TypeArgument} (h : Argument text arg) :
    0 < text.length := by
  cases h with
  | exact href => exact href.length_pos
  | _ => simp

theorem ArgumentList.length_pos {text : List Char} {args : List TypeArgument}
    (h : ArgumentList text args) : 0 < text.length := by
  cases h with
  | one harg => exact harg.length_pos
  | cons harg _ =>
    have := harg.length_pos
    rw [List.length_append]
    omega

/-- With the bound, texts that take no more steps are read as what they were derived with, and what
follows them is left. -/
structure Reads (bound : Nat) : Prop where
  reference : ∀ {text : List Char} {type : TypeSignature}, Reference text type →
    2 * text.length ≤ bound → ∀ rest, readReference? bound (text ++ rest) = some (type, rest)
  ofClass : ∀ {text : List Char} {type : ClassType}, Class text type →
    2 * text.length ≤ bound + 1 → ∀ rest, readClass? bound (text ++ rest) = some (type, rest)
  nested : ∀ {outer : String} {args : List TypeArgument} {text : List Char} {type : ClassType},
    Nested outer args text type → 2 * text.length ≤ bound + 2 →
    ∀ rest, readNested? bound outer args (text ++ rest) = some (type, rest)
  arguments : ∀ {text : List Char} {args : List TypeArgument}, Arguments text args →
    2 * text.length ≤ bound → ∀ c rest, c ≠ '<' →
    readArguments? bound (text ++ c :: rest) = some (args, c :: rest)
  argumentList : ∀ {text : List Char} {args : List TypeArgument}, ArgumentList text args →
    2 * text.length < bound → ∀ acc rest,
    readArgumentList? bound acc (text ++ '>' :: rest) = some (acc.reverse ++ args, rest)

theorem readNested?_stop (bound : Nat) (outer : String) (args : List TypeArgument)
    (rest : List Char) : readNested? bound outer args (';' :: rest) = some (.mk outer args, rest) := by
  rw [readNested?]

theorem readArguments?_of_ne {c : Char} (hc : c ≠ '<') (bound : Nat) (rest : List Char) :
    readArguments? bound (c :: rest) = some ([], c :: rest) := by
  rw [readArguments?]
  all_goals simp [hc]

theorem readArgumentList?_stop (bound : Nat) (acc : List TypeArgument) (rest : List Char) :
    readArgumentList? bound acc ('>' :: rest) = some (acc.reverse, rest) := by
  rw [readArgumentList?]

namespace Reads

variable {bound : Nat}

/-- An argument is read and put in front of those before it. -/
theorem argument (h : Reads bound) {text rest : List Char} {arg : TypeArgument}
    (hderives : Argument text arg) (hbound : 2 * text.length ≤ bound) (acc : List TypeArgument) :
    readArgumentList? (bound + 1) acc (text ++ rest) = readArgumentList? bound (arg :: acc) rest := by
  cases hderives with
  | wildcard => simp [readArgumentList?]
  | upper href =>
    rw [List.length_cons] at hbound
    rw [List.cons_append, readArgumentList?, h.reference href (by omega)]
    rfl
  | lower href =>
    rw [List.length_cons] at hbound
    rw [List.cons_append, readArgumentList?, h.reference href (by omega)]
    rfl
  | exact href =>
    have hread := h.reference href hbound rest
    obtain ⟨c, tail, rfl, hc⟩ := href.exists_head
    rw [List.cons_append] at hread ⊢
    rw [readArgumentList?, hread]
    · rfl
    all_goals
      rintro _ ⟨⟩
      simp at hc

theorem argumentList_succ (h : Reads bound) {text : List Char} {args : List TypeArgument}
    (hderives : ArgumentList text args) (hbound : 2 * text.length < bound + 1)
    (acc : List TypeArgument) (rest : List Char) :
    readArgumentList? (bound + 1) acc (text ++ '>' :: rest) = some (acc.reverse ++ args, rest) := by
  cases hderives with
  | one harg =>
    rw [h.argument harg (by omega), readArgumentList?_stop, List.reverse_cons]
  | @cons text tail arg args harg hargs =>
    have hpos := harg.length_pos
    rw [List.length_append] at hbound
    rw [List.append_assoc, h.argument harg (by omega), h.argumentList hargs (by omega),
      List.reverse_cons, List.append_assoc, List.singleton_append]

theorem arguments_succ (h : Reads bound) {text : List Char} {args : List TypeArgument}
    (hderives : Arguments text args) (hbound : 2 * text.length ≤ bound + 1) (c : Char)
    (rest : List Char) (hc : c ≠ '<') :
    readArguments? (bound + 1) (text ++ c :: rest) = some (args, c :: rest) := by
  cases hderives with
  | none => exact readArguments?_of_ne hc _ _
  | some hargs =>
    simp only [List.length_cons, List.length_append, List.length_nil] at hbound
    rw [List.cons_append, readArguments?, List.append_assoc, List.singleton_append,
      h.argumentList hargs (by omega), List.reverse_nil, List.nil_append]

/-- The arguments of a part of a class are read with the parts nested in it. -/
theorem arguments_nested (h : Reads bound) {outer : String} {arguments nested : List Char}
    {args : List TypeArgument} {type : ClassType} (hargs : Arguments arguments args)
    (hnested : Nested outer args nested type) (hbound : 2 * arguments.length ≤ bound)
    (hnestedBound : 2 * nested.length ≤ bound + 2) (rest : List Char) :
    (do let (args, rest) ← readArguments? bound (arguments ++ (nested ++ rest))
        readNested? bound outer args rest) = some (type, rest) := by
  have hread := h.nested hnested hnestedBound rest
  obtain ⟨c, tail, rfl, hc⟩ := hnested.exists_head
  have hne : c ≠ '<' := by rintro rfl; simp at hc
  rw [List.cons_append] at hread ⊢
  rw [h.arguments hargs hbound c _ hne]
  exact hread

/-- Where the arguments and the nested parts of a class follow, its name has ended. -/
theorem exists_stop {outer : String} {arguments nested : List Char} {args : List TypeArgument}
    {type : ClassType} (hargs : Arguments arguments args) (hnested : Nested outer args nested type)
    (rest : List Char) : ∃ c tail, arguments ++ (nested ++ rest) = c :: tail ∧
      c ∈ ['<', '.', ';'] := by
  cases hargs with
  | none =>
    obtain ⟨c, tail, rfl, hc⟩ := hnested.exists_head
    exact ⟨c, tail ++ rest, rfl, by rcases hc with rfl | rfl <;> decide⟩
  | some => exact ⟨'<', _, rfl, by decide⟩

theorem ofClass_succ (h : Reads bound) {text : List Char} {type : ClassType}
    (hderives : Class text type) (hbound : 2 * text.length ≤ bound + 2) (rest : List Char) :
    readClass? (bound + 1) (text ++ rest) = some (type, rest) := by
  cases hderives with
  | @mk package name arguments nested args _ hpackage hname hargs hnested =>
    have hpos := List.length_pos_iff.mpr hname.ne_nil
    have hnestedPos := hnested.length_pos
    simp only [List.length_cons, List.length_append] at hbound
    obtain ⟨c, tail, htail, hc⟩ := exists_stop hargs hnested rest
    have hread := readName?_package hpackage hname tail hc
    rw [← htail] at hread
    rw [List.cons_append, readClass?, List.append_assoc, List.append_assoc, hread]
    exact h.arguments_nested hargs hnested (by omega) (by omega) rest

theorem nested_succ (h : Reads bound) {outer : String} {outerArgs : List TypeArgument}
    {text : List Char} {type : ClassType} (hderives : Nested outer outerArgs text type)
    (hbound : 2 * text.length ≤ bound + 3) (rest : List Char) :
    readNested? (bound + 1) outer outerArgs (text ++ rest) = some (type, rest) := by
  cases hderives with
  | stop => exact readNested?_stop ..
  | @cons _ _ args name arguments nested _ hname hargs hnested =>
    have hpos := List.length_pos_iff.mpr hname.ne_nil
    have hnestedPos := hnested.length_pos
    simp only [List.length_cons, List.length_append] at hbound
    obtain ⟨c, tail, htail, hc⟩ := exists_stop hargs hnested rest
    have hread := readName?_package .nil hname tail hc
    rw [← htail, List.nil_append] at hread
    rw [List.cons_append, readNested?, List.append_assoc, List.append_assoc, hread]
    exact h.arguments_nested hargs hnested (by omega) (by omega) rest

theorem reference_succ (h : Reads bound) {text : List Char} {type : TypeSignature}
    (hderives : Reference text type) (hbound : 2 * text.length ≤ bound + 1) (rest : List Char) :
    readReference? (bound + 1) (text ++ rest) = some (type, rest) := by
  cases hderives with
  | ofClass hclass =>
    have hread := h.ofClass hclass hbound rest
    obtain ⟨tail, rfl⟩ := hclass.exists_head
    rw [List.cons_append] at hread ⊢
    rw [readReference?, hread]
    rfl
  | «variable» hname =>
    rw [List.cons_append, List.append_assoc, List.singleton_append, readReference?,
      readName?_append hname.ne_nil (fun d hd => ?_) (List.mem_singleton_self _)]
    · rfl
    · rw [List.mem_singleton]
      rintro rfl
      exact hname.not_mem (by decide) hd
  | baseArray hletter =>
    rw [List.cons_append, List.singleton_append, readReference?]
    simp [hletter]
  | @array text component href =>
    rw [List.length_cons] at hbound
    have hread := h.reference href (by omega) rest
    obtain ⟨c, tail, rfl, hc⟩ := href.exists_head
    have hletter : c ∉ baseLetters := by rcases hc with rfl | rfl | rfl <;> decide
    rw [List.cons_append] at hread
    rw [List.cons_append, List.cons_append, readReference?]
    simp [hletter, hread]

end Reads

/-- What the grammar derives is read, with a bound of twice its length. -/
theorem reads (bound : Nat) : Reads bound := by
  induction bound with
  | zero =>
    refine ⟨fun h hbound => ?_, fun h hbound => ?_, fun h hbound rest => ?_,
      fun h hbound c rest hc => ?_, fun h hbound => ?_⟩
    · have := h.length_pos
      omega
    · have := h.length_pos
      omega
    · cases h with
      | stop => exact readNested?_stop ..
      | cons hname _ hnested =>
        have := hnested.length_pos
        simp only [List.length_cons, List.length_append] at hbound
        omega
    · cases h with
      | none => exact readArguments?_of_ne hc _ _
      | some => simp at hbound
    · have := h.length_pos
      omega
  | succ bound ih =>
    exact ⟨ih.reference_succ, ih.ofClass_succ, ih.nested_succ, ih.arguments_succ,
      ih.argumentList_succ⟩

/-! ## Type parameters -/

/-- A reference type is read under any bound of twice its length. -/
theorem Reference.read? {text : List Char} {type : TypeSignature} (h : Reference text type)
    {bound : Nat} (hbound : 2 * text.length ≤ bound) (rest : List Char) :
    readReference? bound (text ++ rest) = some (type, rest) :=
  (reads bound).reference h hbound rest

/-- The text of interface bounds is skipped. -/
theorem skipInterfaceBounds?_append (bound : Nat) {texts : List (List Char)}
    (htexts : ∀ text ∈ texts, ∃ type, Reference text type)
    (hbound : 2 * (texts.flatMap (':' :: ·)).length ≤ bound) {c : Char} (hc : c ≠ ':')
    (rest : List Char) {n : Nat} (hn : texts.length ≤ n) :
    skipInterfaceBounds? bound n (texts.flatMap (':' :: ·) ++ c :: rest) = some (c :: rest) := by
  induction texts generalizing n with
  | nil =>
    rw [List.flatMap_nil, List.nil_append, skipInterfaceBounds?]
    · rintro ⟨⟩
    · rintro _ _ _ ⟨⟩
      exact hc rfl
  | cons text texts ih =>
    obtain ⟨⟨type, htype⟩, htexts⟩ := List.forall_mem_cons.mp htexts
    obtain ⟨n, rfl⟩ := Nat.exists_eq_add_one_of_ne_zero (Nat.ne_of_gt (Nat.zero_lt_of_lt hn))
    rw [List.flatMap_cons, List.cons_append, List.length_cons, List.length_append] at hbound
    rw [List.flatMap_cons, List.cons_append, List.cons_append, List.append_assoc,
      skipInterfaceBounds?, htype.read? (by omega)]
    exact ih htexts (by omega) (Nat.le_of_succ_le_succ hn)

namespace Parameter

variable {p : Parameter}

theorem text_pos (p : Parameter) : 0 < p.text.length := by
  simp [text, bounds]

theorem length_interfaceBounds_lt (p : Parameter) : p.interfaceBounds.length < p.text.length := by
  have hlength : p.interfaceBounds.length ≤ (p.interfaceBounds.flatMap (':' :: ·)).length := by
    induction p.interfaceBounds with
    | nil => exact Nat.zero_le _
    | cons text texts ih =>
      rw [List.flatMap_cons, List.length_append, List.length_cons, List.length_cons]
      omega
  simp only [text, bounds, List.length_append, List.length_cons]
  omega

/-- A class bound is skipped, and where there is none, the start of what follows is no type. -/
theorem skipClassBound?_append (h : p.WellFormed) {bound : Nat} (hbound : 2 * p.text.length ≤ bound)
    {c : Char} (rest : List Char) (hc : p.Bare → ¬(c = 'L' ∨ c = 'T' ∨ c = '[')) :
    skipClassBound? bound (p.classBound.getD [] ++
        (p.interfaceBounds.flatMap (':' :: ·) ++ c :: rest)) =
      some (p.interfaceBounds.flatMap (':' :: ·) ++ c :: rest) := by
  cases hclass : p.classBound with
  | some text =>
    obtain ⟨type, htype⟩ := h.classBound text hclass
    have hshort : text.length ≤ p.text.length := by
      simp only [Parameter.text, bounds, hclass, Option.getD_some, List.length_append,
        List.length_cons]
      omega
    have hread := htype.read? (show 2 * text.length ≤ bound by omega)
      (p.interfaceBounds.flatMap (':' :: ·) ++ c :: rest)
    obtain ⟨d, tail, rfl, hd⟩ := htype.exists_head
    rw [Option.getD_some, List.cons_append] at *
    rw [skipClassBound?, if_pos hd, hread]
    rfl
  | none =>
    rw [Option.getD_none, List.nil_append]
    cases hbounds : p.interfaceBounds with
    | nil =>
      rw [List.flatMap_nil, List.nil_append, skipClassBound?, if_neg (hc ⟨hclass, hbounds⟩)]
    | cons text texts =>
      rw [List.flatMap_cons, List.cons_append, List.cons_append, skipClassBound?,
        if_neg (by decide)]

end Parameter

/-- No type parameter without bounds is followed by one whose name starts like a type. -/
def Legible (parameters : List Parameter) : Prop :=
  parameters.IsChain fun p q => p.Bare → ¬q.LooksLikeType

/-- The character behind a type parameter: the closing bracket, or the start of the next name. -/
theorem exists_next {p : Parameter} {parameters : List Parameter}
    (hformed : ∀ q ∈ parameters, q.WellFormed)
    (hnext : ∀ q ∈ parameters.head?, p.Bare → ¬q.LooksLikeType) (rest : List Char) : ∃ c tail,
      parameters.flatMap Parameter.text ++ '>' :: rest = c :: tail ∧ c ≠ ':' ∧
        (p.Bare → ¬(c = 'L' ∨ c = 'T' ∨ c = '[')) := by
  cases parameters with
  | nil => exact ⟨'>', rest, rfl, by decide, fun _ => by decide⟩
  | cons q parameters =>
    have hname := (hformed q List.mem_cons_self).name
    obtain ⟨c, tail, hcons⟩ := List.exists_cons_of_ne_nil hname.ne_nil
    have hmem : c ∈ q.name := hcons ▸ List.mem_cons_self
    refine ⟨c, tail ++ ':' :: q.bounds ++ (parameters.flatMap Parameter.text ++ '>' :: rest),
      by simp [Parameter.text, hcons], ?_, fun hbare => ?_⟩
    · rintro rfl
      exact hname.not_mem (by decide) hmem
    · have hlooks := hnext q rfl hbare
      rintro (rfl | rfl | rfl)
      · exact hlooks ⟨'L', by rw [hcons]; rfl, .inl rfl⟩
      · exact hlooks ⟨'T', by rw [hcons]; rfl, .inr rfl⟩
      · exact hname.not_mem (by decide) hmem

/-- The name of a type parameter is read before its bounds are skipped. -/
theorem readParameters?_name {name : List Char} (hname : Identifier name) (bound : Nat)
    (acc : List String) (n : Nat) (after : List Char) :
    readParameters? bound acc (n + 1) (name ++ ':' :: after) = (do
      let rest ← skipClassBound? bound after
      let rest ← skipInterfaceBounds? bound n rest
      readParameters? bound (String.ofList name :: acc) n rest) := by
  have hread : readName? [':'] (name ++ ':' :: after) = some (String.ofList name, ':' :: after) := by
    refine readName?_append hname.ne_nil (fun d hd => ?_) (List.mem_singleton_self _)
    rw [List.mem_singleton]
    rintro rfl
    exact hname.not_mem (by decide) hd
  obtain ⟨c, tail, rfl⟩ := List.exists_cons_of_ne_nil hname.ne_nil
  rw [List.cons_append] at hread ⊢
  rw [readParameters?, hread]
  · rfl
  -- the name is not the closing bracket
  · rintro _ ⟨⟩
    exact hname.not_mem (by decide) List.mem_cons_self

/-- A type parameter is read up to what follows its bounds. -/
theorem readParameters?_cons {p : Parameter} (hp : p.WellFormed) {bound : Nat}
    (hbound : 2 * p.text.length ≤ bound) (acc : List String) {n : Nat} (hn : p.text.length ≤ n + 1)
    {c : Char} (hcolon : c ≠ ':') (hstart : p.Bare → ¬(c = 'L' ∨ c = 'T' ∨ c = '['))
    (tail : List Char) :
    readParameters? bound acc (n + 1) (p.text ++ c :: tail) =
      readParameters? bound (String.ofList p.name :: acc) n (c :: tail) := by
  have hfew := p.length_interfaceBounds_lt
  have hclass := Parameter.skipClassBound?_append hp hbound tail hstart
  have hbounds := skipInterfaceBounds?_append bound hp.interfaceBounds
    (by simp only [Parameter.text, Parameter.bounds, List.length_append, List.length_cons] at hbound
        omega) hcolon tail (show p.interfaceBounds.length ≤ n by omega)
  rw [Parameter.text, List.append_assoc, List.cons_append, readParameters?_name hp.name,
    Parameter.bounds, List.append_assoc, hclass, Option.bind_eq_bind, Option.bind_some, hbounds]
  rfl

theorem readParameters?_append (bound : Nat) {parameters : List Parameter}
    (hformed : ∀ p ∈ parameters, p.WellFormed) (hlegible : Legible parameters)
    (hbound : 2 * (parameters.flatMap Parameter.text).length ≤ bound) (acc : List String)
    (rest : List Char) {n : Nat} (hn : (parameters.flatMap Parameter.text).length ≤ n) :
    readParameters? bound acc n (parameters.flatMap Parameter.text ++ '>' :: rest) =
      some (acc.reverse ++ parameters.map (String.ofList ·.name), rest) := by
  induction parameters generalizing acc n with
  | nil => rw [List.flatMap_nil, List.nil_append, readParameters?, List.map_nil, List.append_nil]
  | cons p parameters ih =>
    obtain ⟨hp, hformed⟩ := List.forall_mem_cons.mp hformed
    obtain ⟨c, tail, htail, hcolon, hstart⟩ :=
      exists_next hformed (List.isChain_cons.mp hlegible).1 rest
    rw [List.flatMap_cons, List.length_append] at hbound hn
    have hpos := p.text_pos
    obtain ⟨n, rfl⟩ := Nat.exists_eq_add_one_of_ne_zero (show n ≠ 0 by omega)
    have hread := ih hformed hlegible.tail (by omega) (String.ofList p.name :: acc)
      (show _ ≤ n by omega)
    rw [htail] at hread
    rw [List.flatMap_cons, List.append_assoc, htail,
      readParameters?_cons hp (by omega) acc (by omega) hcolon hstart, hread, List.reverse_cons,
      List.append_assoc]
    rfl

/-! ## Signatures -/

theorem readClasses?_append (bound : Nat) {texts : List (List Char)} {types : List ClassType}
    (h : List.Forall₂ Class texts types) (hbound : 2 * texts.flatten.length ≤ bound + 1)
    (acc : List ClassType) {n : Nat} (hn : texts.flatten.length ≤ n) :
    readClasses? bound acc n texts.flatten = some (acc.reverse ++ types) := by
  induction h generalizing acc n with
  | nil => rw [List.flatten_nil, readClasses?, List.append_nil]
  | @cons text type texts types htype _ ih =>
    have hpos := htype.length_pos
    rw [List.flatten_cons, List.length_append] at hbound hn
    obtain ⟨n, rfl⟩ := Nat.exists_eq_add_one_of_ne_zero (show n ≠ 0 by omega)
    have hread := (reads bound).ofClass htype (by omega) texts.flatten
    have hrest := ih (by omega) (type :: acc) (show texts.flatten.length ≤ n by omega)
    obtain ⟨tail, rfl⟩ := htype.exists_head
    rw [List.cons_append] at hread
    rw [List.flatten_cons, List.cons_append, readClasses?, hread]
    · simpa using hrest
    · rintro ⟨⟩

theorem read?_append {bound : Nat} {parameters : List Parameter} {superText : List Char}
    {superclass : ClassType} {interfaceTexts : List (List Char)} {interfaces : List ClassType}
    (hformed : ∀ p ∈ parameters, p.WellFormed) (hlegible : Legible parameters)
    (hsuper : Class superText superclass) (hinterfaces : List.Forall₂ Class interfaceTexts interfaces)
    (hbound : 2 * (parametersText parameters ++ superText ++ interfaceTexts.flatten).length ≤ bound) :
    read? bound (parametersText parameters ++ superText ++ interfaceTexts.flatten) =
      some { parameters := parameters.map (String.ofList ·.name), superclass, interfaces } := by
  simp only [List.length_append] at hbound
  have hclass := (reads bound).ofClass hsuper (by omega) interfaceTexts.flatten
  have hclasses := readClasses?_append bound hinterfaces (by omega) [] (show _ ≤ bound by omega)
  rw [List.append_assoc]
  cases parameters with
  | nil =>
    obtain ⟨tail, rfl⟩ := hsuper.exists_head
    rw [List.cons_append] at hclass
    rw [parametersText, List.isEmpty_nil, if_pos rfl, List.nil_append, List.cons_append, read?]
    · simp only [hclass, Option.bind_eq_bind, Option.bind_some, hclasses]
      rfl
    · rintro _ ⟨⟩
  | cons p parameters =>
    have htext : parametersText (p :: parameters) =
        '<' :: ((p :: parameters).flatMap Parameter.text ++ ['>']) := rfl
    rw [htext, List.length_cons, List.length_append] at hbound
    have hread := readParameters?_append bound hformed hlegible (by omega) []
      (superText ++ interfaceTexts.flatten) (show _ ≤ bound by omega)
    rw [htext, List.cons_append, List.append_assoc, List.singleton_append, read?]
    simp only [hread, Option.bind_eq_bind, Option.bind_some, hclass, hclasses]
    rfl

/-- A signature is read as what it declares if no type parameter hides another one. -/
theorem parse_of_declares {parameters : List Parameter} {text : String} {signature : ClassSignature}
    (h : Declares parameters text.toList signature) (hlegible : Legible parameters) :
    parse text = .ok signature := by
  have hread : parse? text = some signature := by
    rw [parse?]
    generalize text.toList = chars at h
    cases h with
    | mk hformed hsuper hinterfaces =>
      exact read?_append hformed hlegible hsuper hinterfaces (by rw [boundFor]; omega)
  rw [parse, hread]
  rfl

end ClassPatch.ClassSignature
