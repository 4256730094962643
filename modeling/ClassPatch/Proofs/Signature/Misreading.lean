import Mathlib
import ClassPatch.Proofs.Signature.Reading

/-!
# Type parameters that are misread

Where a type parameter without bounds is followed by one whose name starts like a type, that name is
taken for the bound. What is read then has too few names: each name that is read ends with a colon
that could end a name, the colon of the parameter that was taken for a bound is passed over, and the
text has one such colon for each parameter it declares.
-/

namespace ClassPatch.ClassSignature

/-! ## Colons -/

mutual

theorem Reference.colon_not_mem {text : List Char} {type : TypeSignature} :
    Reference text type → ':' ∉ text
  | .ofClass h => h.colon_not_mem
  | .variable hname => by simp [hname.not_mem (show ':' ∈ reserved by decide)]
  | .baseArray hletter => by
    have hcolon : ':' ∉ baseLetters := by decide
    rintro (_ | ⟨_, _ | ⟨_, ⟨⟩⟩⟩)
    exact hcolon hletter
  | .array h => by simp [h.colon_not_mem]

theorem Class.colon_not_mem {text : List Char} {type : ClassType} : Class text type → ':' ∉ text
  | .mk hpackage hname hargs hnested => by
    have hslash : ':' ∉ _ := fun hmem => hpackage.not_reserved ':' hmem (by decide) (by decide)
    simp [hslash, hname.not_mem (show ':' ∈ reserved by decide),
      hargs.colon_not_mem, hnested.colon_not_mem]

theorem Nested.colon_not_mem {outer : String} {args : List TypeArgument} {text : List Char}
    {type : ClassType} : Nested outer args text type → ':' ∉ text
  | .stop => by decide
  | .cons hname hargs hnested => by
    simp [hname.not_mem (show ':' ∈ reserved by decide), hargs.colon_not_mem,
      hnested.colon_not_mem]

theorem Arguments.colon_not_mem {text : List Char} {args : List TypeArgument} :
    Arguments text args → ':' ∉ text
  | .none => List.not_mem_nil
  | .some h => by simp [h.colon_not_mem]

theorem ArgumentList.colon_not_mem {text : List Char} {args : List TypeArgument} :
    ArgumentList text args → ':' ∉ text
  | .one h => h.colon_not_mem
  | .cons h hs => by simp [h.colon_not_mem, hs.colon_not_mem]

theorem Argument.colon_not_mem {text : List Char} {arg : TypeArgument} :
    Argument text arg → ':' ∉ text
  | .wildcard => by decide
  | .upper h => by simp [h.colon_not_mem]
  | .lower h => by simp [h.colon_not_mem]
  | .exact h => h.colon_not_mem

end

theorem Nested.suffix {outer : String} {args : List TypeArgument} {text : List Char}
    {type : ClassType} : Nested outer args text type → [';'] <:+ text
  | .stop => List.suffix_rfl
  | .cons _ _ h => (h.suffix.trans (List.suffix_append ..)).trans (List.suffix_cons ..)

theorem Class.suffix {text : List Char} {type : ClassType} : Class text type → [';'] <:+ text
  | .mk _ _ _ h => (h.suffix.trans (List.suffix_append ..)).trans (List.suffix_cons ..)

/-- A reference type ends with a semicolon, or with a bracket and a letter. -/
theorem Reference.suffix {text : List Char} {type : TypeSignature} : Reference text type →
    [';'] <:+ text ∨ ∃ letter ∈ baseLetters, ['[', letter] <:+ text
  | .ofClass h => .inl h.suffix
  | .variable _ => .inl ((List.suffix_append ..).trans (List.suffix_cons ..))
  | .baseArray h => .inr ⟨_, h, List.suffix_rfl⟩
  | .array h => h.suffix.imp (·.trans (List.suffix_cons ..)) fun hletter => by
    obtain ⟨letter, hmem, hsuffix⟩ := hletter
    exact ⟨letter, hmem, hsuffix.trans (List.suffix_cons ..)⟩

/-- What is known while a text is scanned: its last character, whether it is the end of a name that
does not start behind a bracket, and the number of colons that come behind such an end. -/
structure Scan where
  last : Char
  named : Bool
  colons : Nat

namespace Scan

/-- One character is scanned. -/
def step (s : Scan) (c : Char) : Scan :=
  if c = ':' then ⟨c, false, s.colons + s.named.toNat⟩
  else ⟨c, c ∉ reserved && s.last != '[', s.colons⟩

/-- A text is scanned. -/
def run (s : Scan) (text : List Char) : Scan := text.foldl step s

variable {s : Scan} {c : Char} {text : List Char}

@[simp] theorem run_nil (s : Scan) : s.run [] = s := rfl

@[simp] theorem run_cons (s : Scan) (c : Char) (text : List Char) :
    s.run (c :: text) = (s.step c).run text := rfl

theorem run_append (s : Scan) (front back : List Char) :
    s.run (front ++ back) = (s.run front).run back := List.foldl_append

theorem step_of_ne (hc : c ≠ ':') : s.step c = ⟨c, c ∉ reserved && s.last != '[', s.colons⟩ :=
  if_neg hc

@[simp] theorem last_step : (s.step c).last = c := by
  rw [step]
  split <;> rfl

theorem last_run_concat (s : Scan) (front : List Char) (c : Char) :
    (s.run (front ++ [c])).last = c := by
  rw [run_append, run_cons, run_nil, last_step]

theorem colons_le_run (s : Scan) (text : List Char) : s.colons ≤ (s.run text).colons := by
  induction text generalizing s with
  | nil => exact Nat.le_refl _
  | cons c text ih =>
    refine Nat.le_trans ?_ (ih (s.step c))
    rw [step]
    split
    · exact Nat.le_add_right ..
    · exact Nat.le_refl _

theorem colons_run (h : ':' ∉ text) : (s.run text).colons = s.colons := by
  induction text generalizing s with
  | nil => rfl
  | cons c text ih =>
    rw [List.mem_cons, not_or] at h
    rw [run_cons, ih h.2, step_of_ne (Ne.symm h.1)]

/-- Behind a name stands the end of a name, unless the name is one character behind a bracket. -/
theorem named_run {name : List Char} (hname : Identifier name) (hlast : s.last ≠ '[') :
    (s.run name).named = true := by
  obtain ⟨front, c, rfl⟩ := (List.eq_nil_or_concat' name).resolve_left hname.ne_nil
  have hfront : (s.run front).last ≠ '[' := by
    rcases List.eq_nil_or_concat' front with rfl | ⟨front, d, rfl⟩
    · exact hlast
    · rw [last_run_concat]
      rintro rfl
      exact hname.not_mem (show '[' ∈ reserved by decide) (by simp)
  have hc := hname.not_reserved c (by simp)
  have hcolon : c ≠ ':' := by
    rintro rfl
    exact hc (by decide)
  rw [run_append, run_cons, run_nil, step_of_ne hcolon]
  simp [hc, hfront]

/-- The colon behind a name is counted. -/
theorem colons_run_name {name : List Char} (hname : Identifier name) (hlast : s.last ≠ '[') :
    (s.run (name ++ [':'])).colons = s.colons + 1 := by
  rw [run_append, run_cons, run_nil, step, if_pos rfl, named_run hname hlast,
    colons_run (hname.not_mem (by decide))]
  rfl

/-- Behind a reference type is no end of a name. -/
theorem run_reference {type : TypeSignature} (h : Reference text type) (s : Scan) :
    (s.run text).named = false ∧ (s.run text).last ≠ '[' ∧ (s.run text).colons = s.colons := by
  refine ⟨?_, ?_, colons_run h.colon_not_mem⟩
  all_goals rcases h.suffix with ⟨front, rfl⟩ | ⟨letter, hletter, front, rfl⟩
  · rw [run_append, run_cons, run_nil, step_of_ne (by decide)]
    rfl
  · have hcolon : ∀ c ∈ baseLetters, c ≠ ':' := by simp [baseLetters]
    rw [run_append, run_cons, run_cons, run_nil, step_of_ne (hcolon letter hletter), last_step]
    simp
  · rw [last_run_concat]
    decide
  · have hbracket : ∀ c ∈ baseLetters, c ≠ '[' := by simp [baseLetters]
    rw [run_append, run_cons, run_cons, run_nil, last_step]
    exact hbracket letter hletter

/-- The texts of interface bounds hold no end of a name, nor do they end with one. -/
theorem run_interfaceBounds {texts : List (List Char)}
    (htexts : ∀ text ∈ texts, ∃ type, Reference text type) (hnamed : s.named = false)
    (hlast : s.last ≠ '[') :
    (s.run (texts.flatMap (':' :: ·))).named = false ∧
      (s.run (texts.flatMap (':' :: ·))).last ≠ '[' ∧
      (s.run (texts.flatMap (':' :: ·))).colons = s.colons := by
  induction texts generalizing s with
  | nil => exact ⟨hnamed, hlast, rfl⟩
  | cons text texts ih =>
    obtain ⟨⟨type, htype⟩, htexts⟩ := List.forall_mem_cons.mp htexts
    obtain ⟨hnamed', hlast', hcolons⟩ := run_reference htype (s.step ':')
    have hcolon : (s.step ':').colons = s.colons := by
      rw [step, if_pos rfl, hnamed]
      rfl
    rw [List.flatMap_cons, run_append, run_cons]
    rw [← hcolon, ← hcolons]
    exact ih htexts hnamed' hlast'

/-- The bounds of a type parameter hold no end of a name, nor do they end with one. -/
theorem run_bounds {p : Parameter} (hp : p.WellFormed) (hnamed : s.named = false)
    (hlast : s.last ≠ '[') :
    (s.run p.bounds).named = false ∧ (s.run p.bounds).last ≠ '[' ∧
      (s.run p.bounds).colons = s.colons := by
  rw [Parameter.bounds, run_append]
  cases hclass : p.classBound with
  | none => exact run_interfaceBounds hp.interfaceBounds hnamed hlast
  | some text =>
    obtain ⟨type, htype⟩ := hp.classBound text hclass
    obtain ⟨hnamed', hlast', hcolons⟩ := run_reference htype s
    rw [Option.getD_some, ← hcolons]
    exact run_interfaceBounds hp.interfaceBounds hnamed' hlast'

/-- The texts of type parameters hold an end of a name for each of them. -/
theorem run_parameters {parameters : List Parameter} (hformed : ∀ p ∈ parameters, p.WellFormed)
    (hnamed : s.named = false) (hlast : s.last ≠ '[') :
    (s.run (parameters.flatMap Parameter.text)).named = false ∧
      (s.run (parameters.flatMap Parameter.text)).colons = s.colons + parameters.length := by
  induction parameters generalizing s with
  | nil => exact ⟨hnamed, rfl⟩
  | cons p parameters ih =>
    obtain ⟨hp, hformed⟩ := List.forall_mem_cons.mp hformed
    have hcolons := colons_run_name hp.name hlast
    have hname : (s.run (p.name ++ [':'])).named = false := by
      rw [run_append, run_cons, run_nil, step, if_pos rfl]
    have hcolon : (s.run (p.name ++ [':'])).last ≠ '[' := by
      rw [last_run_concat]
      decide
    obtain ⟨hnamed', hlast', hbounds⟩ := run_bounds hp hname hcolon
    have htext : p.text = p.name ++ [':'] ++ p.bounds := by simp [Parameter.text]
    obtain ⟨hrest, hcount⟩ := ih hformed hnamed' hlast'
    rw [List.flatMap_cons, run_append, htext, run_append, hcount, hbounds, hcolons,
      List.length_cons]
    exact ⟨hrest, by omega⟩

end Scan

/-! ## What is passed over -/

/-- Reading comes from a text to what is left of it past a character that is no opening bracket. -/
def Passes (text rest : List Char) : Prop := ∃ front c, c ≠ '[' ∧ text = front ++ c :: rest

theorem Passes.suffix {text rest : List Char} (h : Passes text rest) : rest <:+ text := by
  obtain ⟨front, c, -, rfl⟩ := h
  exact (List.suffix_cons c rest).trans (List.suffix_append front _)

theorem Passes.of_suffix {text whole rest : List Char} (h : Passes text rest)
    (hsuffix : text <:+ whole) : Passes whole rest := by
  obtain ⟨front, c, hc, rfl⟩ := h
  obtain ⟨before, rfl⟩ := hsuffix
  exact ⟨before ++ front, c, hc, (List.append_assoc ..).symm⟩

/-- Behind a name is the first of the characters that end it, and all that follows. -/
theorem readName?_eq_some {stops text rest : List Char} {name : String}
    (h : readName? stops text = some (name, rest)) :
    text = name.toList ++ rest ∧ rest = text.dropWhile (!stops.contains ·) ∧
      ∃ c tail, c ∈ stops ∧ rest = c :: tail := by
  have htext : text.takeWhile (!stops.contains ·) ++ text.dropWhile (!stops.contains ·) = text :=
    List.takeWhile_append_dropWhile
  have hdrop : text.drop (text.takeWhile (!stops.contains ·)).length =
      text.dropWhile (!stops.contains ·) := by
    have hsame := congrArg (List.drop (text.takeWhile (!stops.contains ·)).length) htext
    rw [List.drop_left] at hsame
    exact hsame.symm
  rw [readName?, hdrop] at h
  split at h
  · cases h
  · rename_i hne
    cases h
    refine ⟨by simp, rfl, ?_⟩
    have hhead := List.head?_dropWhile_not (!stops.contains ·) text
    cases hrest : text.dropWhile (!stops.contains ·) with
    | nil =>
      rw [hrest] at hne
      simp at hne
    | cons c tail =>
      rw [hrest] at hhead
      exact ⟨c, tail, by simpa using hhead, rfl⟩

/-- What types leave of the texts that they are read from, under a bound. -/
structure Leaves (bound : Nat) : Prop where
  reference : ∀ {text rest : List Char} {type : TypeSignature},
    readReference? bound text = some (type, rest) → Passes text rest
  ofClass : ∀ {text rest : List Char} {type : ClassType},
    readClass? bound text = some (type, rest) → Passes text rest
  nested : ∀ {outer : String} {args : List TypeArgument} {text rest : List Char} {type : ClassType},
    readNested? bound outer args text = some (type, rest) → Passes text rest
  arguments : ∀ {text rest : List Char} {args : List TypeArgument},
    readArguments? bound text = some (args, rest) → rest <:+ text
  argumentList : ∀ {acc args : List TypeArgument} {text rest : List Char},
    readArgumentList? bound acc text = some (args, rest) → rest <:+ text

namespace Leaves

variable {bound : Nat} {text rest : List Char}

theorem reference_of_lt (ih : ∀ b < bound, Leaves b) {type : TypeSignature}
    (h : readReference? bound text = some (type, rest)) : Passes text rest := by
  rw [readReference?.eq_def] at h
  split at h
  · rename_i b text
    obtain ⟨⟨ofClass, after⟩, hclass, hsome⟩ := Option.bind_eq_some_iff.mp h
    cases hsome
    exact (ih b b.lt_succ_self).ofClass hclass
  · rename_i b text
    obtain ⟨⟨name, after⟩, hname, hsome⟩ := Option.bind_eq_some_iff.mp h
    obtain ⟨htext, -, c, tail, hc, rfl⟩ := readName?_eq_some hname
    obtain rfl := List.mem_singleton.mp hc
    cases hsome
    exact ⟨'T' :: name.toList, ';', by decide, by rw [htext]; rfl⟩
  · rename_i b text
    split at h
    · cases h
    rename_i letter after
    split at h
    · rename_i hletter
      cases h
      refine ⟨['['], letter, ?_, rfl⟩
      rintro rfl
      exact absurd hletter (by decide)
    · obtain ⟨⟨component, after⟩, hcomponent, hsome⟩ := Option.bind_eq_some_iff.mp h
      cases hsome
      exact ((ih b b.lt_succ_self).reference hcomponent).of_suffix (List.suffix_cons ..)
  · cases h

/-- A part of a class type, after the character that announces it: its name, its arguments and
the parts nested in it. -/
theorem passes_of_part {leading : Char} (hleaves : Leaves bound) (outer : String → String)
    {type : ClassType} (h : (do
      let (name, rest) ← readName? ['<', '.', ';'] text
      let (arguments, rest) ← readArguments? bound rest
      readNested? bound (outer name) arguments rest) = some (type, rest)) :
    Passes (leading :: text) rest := by
  obtain ⟨⟨name, afterName⟩, hname, h⟩ := Option.bind_eq_some_iff.mp h
  obtain ⟨⟨args, afterArgs⟩, hargs, h⟩ := Option.bind_eq_some_iff.mp h
  obtain ⟨htext, -⟩ := readName?_eq_some hname
  refine (hleaves.nested h).of_suffix ((hleaves.arguments hargs).trans ?_)
  exact (htext ▸ List.suffix_append ..).trans (List.suffix_cons ..)

theorem ofClass_of_lt (ih : ∀ b < bound, Leaves b) {type : ClassType}
    (h : readClass? bound text = some (type, rest)) : Passes text rest := by
  rw [readClass?.eq_def] at h
  split at h
  · exact passes_of_part (ih _ (Nat.lt_succ_self _)) id h
  · cases h

theorem nested_of_lt (ih : ∀ b < bound, Leaves b) {outer : String} {args : List TypeArgument}
    {type : ClassType} (h : readNested? bound outer args text = some (type, rest)) :
    Passes text rest := by
  rw [readNested?.eq_def] at h
  split at h
  · cases h
    exact ⟨[], ';', by decide, rfl⟩
  · exact passes_of_part (ih _ (Nat.lt_succ_self _)) (outer ++ "$" ++ ·) h
  · cases h

theorem arguments_of_lt (ih : ∀ b < bound, Leaves b) {args : List TypeArgument}
    (h : readArguments? bound text = some (args, rest)) : rest <:+ text := by
  rw [readArguments?.eq_def] at h
  split at h
  · cases h
  · rename_i b text
    exact ((ih b b.lt_succ_self).argumentList h).trans (List.suffix_cons ..)
  · cases h
  · cases h
    exact List.suffix_rfl

theorem argumentList_of_lt (ih : ∀ b < bound, Leaves b) {acc args : List TypeArgument}
    (h : readArgumentList? bound acc text = some (args, rest)) : rest <:+ text := by
  have hreference {b : Nat} (hb : b < bound) {text : List Char}
      {make : TypeSignature → TypeArgument}
      (h : (readReference? b text).bind (fun read => readArgumentList? b (make read.1 :: acc) read.2) =
        some (args, rest)) : rest <:+ text := by
    obtain ⟨⟨type, after⟩, htype, h⟩ := Option.bind_eq_some_iff.mp h
    exact ((ih b hb).argumentList h).trans ((ih b hb).reference htype).suffix
  rw [readArgumentList?.eq_def] at h
  split at h
  · cases h
    exact List.suffix_cons ..
  · rename_i b text
    exact ((ih b b.lt_succ_self).argumentList h).trans (List.suffix_cons ..)
  · rename_i b text
    exact (hreference b.lt_succ_self h).trans (List.suffix_cons ..)
  · rename_i b text
    exact (hreference b.lt_succ_self h).trans (List.suffix_cons ..)
  · exact hreference (Nat.lt_succ_self _) h
  · cases h

end Leaves

theorem leaves (bound : Nat) : Leaves bound := by
  induction bound using Nat.strong_induction_on with
  | h bound ih => exact ⟨Leaves.reference_of_lt ih, Leaves.ofClass_of_lt ih, Leaves.nested_of_lt ih,
      Leaves.arguments_of_lt ih, Leaves.argumentList_of_lt ih⟩

/-! ## Names that are read -/

namespace Scan

/-- Wherever a text is scanned behind anything but an opening bracket, so is what is left of it, with
no fewer colons before it. -/
def Leads (text rest : List Char) : Prop := ∀ s : Scan, s.last ≠ '[' →
  ∃ s' : Scan, s'.last ≠ '[' ∧ s.colons ≤ s'.colons ∧ s.run text = s'.run rest

theorem Leads.refl (text : List Char) : Leads text text := fun s hs => ⟨s, hs, le_rfl, rfl⟩

theorem Leads.trans {text middle rest : List Char} (h : Leads text middle)
    (h' : Leads middle rest) : Leads text rest := by
  intro s hs
  obtain ⟨s', hs', hcolons, hrun⟩ := h s hs
  obtain ⟨s'', hs'', hcolons', hrun'⟩ := h' s' hs'
  exact ⟨s'', hs'', hcolons.trans hcolons', hrun.trans hrun'⟩

end Scan

theorem Passes.leads {text rest : List Char} (h : Passes text rest) : Scan.Leads text rest := by
  obtain ⟨front, c, hc, rfl⟩ := h
  intro s _
  refine ⟨s.run (front ++ [c]), ?_, s.colons_le_run _, ?_⟩
  · rwa [Scan.last_run_concat]
  · rw [← Scan.run_append, List.append_assoc, List.singleton_append]

theorem leads_of_skipClassBound? {bound : Nat} {text rest : List Char}
    (h : skipClassBound? bound text = some rest) : Scan.Leads text rest := by
  rw [skipClassBound?.eq_def] at h
  split at h
  · cases h
  · split at h
    · obtain ⟨⟨type, after⟩, htype, rfl⟩ := Option.map_eq_some_iff.mp h
      exact ((leaves bound).reference htype).leads
    · cases h
      exact .refl _

theorem leads_of_skipInterfaceBounds? {bound n : Nat} {text rest : List Char}
    (h : skipInterfaceBounds? bound n text = some rest) : Scan.Leads text rest := by
  induction n using Nat.strong_induction_on generalizing text with
  | h n ih =>
    rw [skipInterfaceBounds?.eq_def] at h
    split at h
    · cases h
    · rename_i n text
      split at h
      · rename_i type after htype
        have hpasses := ((leaves bound).reference htype).of_suffix (List.suffix_cons ':' text)
        exact hpasses.leads.trans (ih n n.lt_succ_self h)
      · cases h
    · cases h
      exact .refl _

/-- Every name that is read ends with a colon that is counted. -/
theorem colons_of_readParameters? {bound n : Nat} {acc names : List String} {text rest : List Char}
    (h : readParameters? bound acc n text = some (names, rest)) :
    ∃ more, names = acc.reverse ++ more ∧ ((∀ name ∈ more, Identifier name.toList) →
      ∀ s : Scan, s.last ≠ '[' → s.colons + more.length ≤ (s.run text).colons) := by
  induction n using Nat.strong_induction_on generalizing acc text with
  | h n ih =>
    rw [readParameters?.eq_def] at h
    split at h
    · cases h
      exact ⟨[], (List.append_nil _).symm, fun _ s _ => s.colons_le_run _⟩
    · cases h
    · rename_i n _
      obtain ⟨⟨name, afterName⟩, hname, hskip⟩ := Option.bind_eq_some_iff.mp h
      obtain ⟨afterClass, hclass, hskip⟩ := Option.bind_eq_some_iff.mp hskip
      obtain ⟨afterBounds, hbounds, hrest⟩ := Option.bind_eq_some_iff.mp hskip
      obtain ⟨htext, -, c, tail, hc, rfl⟩ := readName?_eq_some hname
      obtain rfl := List.mem_singleton.mp hc
      obtain ⟨more, rfl, hmore⟩ := ih n n.lt_succ_self hrest
      refine ⟨name :: more, by simp, fun hnames s hs => ?_⟩
      obtain ⟨hident, hnames⟩ := List.forall_mem_cons.mp hnames
      have hcolons := Scan.colons_run_name hident hs
      obtain ⟨s', hs', hle, hrun⟩ := (leads_of_skipClassBound? hclass).trans
        (leads_of_skipInterfaceBounds? hbounds) (s.run (name.toList ++ [':']))
        (by rw [Scan.last_run_concat]; decide)
      have hcount := hmore hnames s' hs'
      have hsame : s.run text = s'.run afterBounds := by
        rw [← hrun, htext, ← Scan.run_append, List.append_assoc]
        rfl
      rw [hsame, List.length_cons]
      omega

/-! ## Type parameters taken for bounds -/

/-- A name and the colon behind it are read over if neither stops the reading. -/
theorem suffix_of_readName? {stops name after rest : List Char} {read : String}
    (hname : ∀ c ∈ name, c ∉ stops) (hcolon : ':' ∉ stops)
    (h : readName? stops (name ++ ':' :: after) = some (read, rest)) : rest <:+ after := by
  obtain ⟨-, hrest, -⟩ := readName?_eq_some h
  rw [List.dropWhile_append_of_pos fun c hc => by simpa using hname c hc,
    List.dropWhile_cons_of_pos (by simpa using hcolon)] at hrest
  exact hrest ▸ List.dropWhile_suffix _

theorem exists_readClass?_of_reference {bound : Nat} {text rest : List Char} {type : TypeSignature}
    (h : readReference? bound ('L' :: text) = some (type, rest)) :
    ∃ b ofClass, readClass? b ('L' :: text) = some (ofClass, rest) := by
  cases bound with
  | zero =>
    rw [readReference?.eq_def] at h
    cases h
  | succ b =>
    rw [readReference?] at h
    obtain ⟨⟨ofClass, after⟩, hclass, hsome⟩ := Option.bind_eq_some_iff.mp h
    cases hsome
    exact ⟨b, ofClass, hclass⟩

theorem exists_readName?_of_reference {bound : Nat} {text rest : List Char} {type : TypeSignature}
    (h : readReference? bound ('T' :: text) = some (type, rest)) :
    ∃ name after, readName? [';'] text = some (name, after) ∧ rest = after.drop 1 := by
  cases bound with
  | zero =>
    rw [readReference?.eq_def] at h
    cases h
  | succ b =>
    rw [readReference?] at h
    obtain ⟨⟨name, after⟩, hname, hsome⟩ := Option.bind_eq_some_iff.mp h
    cases hsome
    exact ⟨name, after, hname, rfl⟩

theorem passes_of_readClass? {bound : Nat} {name after rest : List Char} {type : ClassType}
    (hname : ∀ c ∈ name, c ∉ ['<', '.', ';'])
    (h : readClass? bound ('L' :: (name ++ ':' :: after)) = some (type, rest)) :
    Passes after rest := by
  cases bound with
  | zero =>
    rw [readClass?.eq_def] at h
    cases h
  | succ b =>
    rw [readClass?] at h
    obtain ⟨⟨read, afterName⟩, hread, h⟩ := Option.bind_eq_some_iff.mp h
    obtain ⟨⟨args, afterArgs⟩, hargs, h⟩ := Option.bind_eq_some_iff.mp h
    have hsuffix := suffix_of_readName? hname (by decide) hread
    exact ((leaves b).nested h).of_suffix (((leaves b).arguments hargs).trans hsuffix)

/-- A name that starts like a type is read over with its colon where a bound may stand. -/
theorem passes_of_looksLikeType {q : Parameter} (hname : Identifier q.name)
    (hlooks : q.LooksLikeType) {bound : Nat} {after rest : List Char}
    (h : skipClassBound? bound (q.name ++ ':' :: after) = some rest) : Passes after rest := by
  obtain ⟨c, hc, hletter⟩ := hlooks
  obtain ⟨name, hcons⟩ := List.head?_eq_some_iff.mp hc
  have hchars {stops : List Char} (hstops : stops ⊆ reserved) : ∀ d ∈ name, d ∉ stops :=
    fun d hd hstop => hname.not_reserved d (hcons ▸ List.mem_cons_of_mem c hd) (hstops hstop)
  rw [hcons, List.cons_append, skipClassBound?,
    if_pos (hletter.imp id fun h => Or.inl h)] at h
  obtain ⟨⟨type, _⟩, htype, rfl⟩ := Option.map_eq_some_iff.mp h
  rcases hletter with rfl | rfl
  · obtain ⟨b, ofClass, hclass⟩ := exists_readClass?_of_reference htype
    exact passes_of_readClass? (hchars (by decide)) hclass
  · obtain ⟨read, afterName, hread, rfl⟩ := exists_readName?_of_reference htype
    have hsuffix := suffix_of_readName? (hchars (by decide)) (by decide) hread
    obtain ⟨-, -, d, tail, hd, rfl⟩ := readName?_eq_some hread
    obtain rfl := List.mem_singleton.mp hd
    exact Passes.of_suffix ⟨[], ';', by decide, rfl⟩ hsuffix

/-- Where a type parameter without bounds is followed by one whose name starts like a type, not all
names are read. -/
theorem readParameters?_misread {p q : Parameter} {parameters : List Parameter}
    (hp : p.WellFormed) (hformed : ∀ r ∈ q :: parameters, r.WellFormed) (hbare : p.Bare)
    (hlooks : q.LooksLikeType) {tail : List Char} (htail : ':' ∉ tail) (bound : Nat)
    (acc : List String) (n : Nat) (rest : List Char) :
    readParameters? bound acc (n + 1)
        ((p :: q :: parameters).flatMap Parameter.text ++ '>' :: tail) ≠
      some (acc.reverse ++ (p :: q :: parameters).map (String.ofList ·.name), rest) := by
  intro h
  have hq := hformed q List.mem_cons_self
  have hnone : p.bounds = [] := by
    rw [Parameter.bounds, hbare.1, hbare.2]
    rfl
  let after := q.bounds ++ (parameters.flatMap Parameter.text ++ '>' :: tail)
  have htext : (p :: q :: parameters).flatMap Parameter.text ++ '>' :: tail =
      p.name ++ ':' :: (q.name ++ ':' :: after) := by
    simp [after, Parameter.text, hnone]
  rw [htext, readParameters?_name hp.name] at h
  obtain ⟨afterClass, hclass, hskip⟩ := Option.bind_eq_some_iff.mp h
  obtain ⟨afterBounds, hbounds, hread⟩ := Option.bind_eq_some_iff.mp hskip
  obtain ⟨more, hmore, hcount⟩ := colons_of_readParameters? hread
  obtain rfl : (q :: parameters).map (String.ofList ·.name) = more := by
    simpa using hmore
  have hidents : ∀ name ∈ (q :: parameters).map (String.ofList ·.name), Identifier name.toList := by
    intro name hname
    obtain ⟨r, hr, rfl⟩ := List.mem_map.mp hname
    rw [String.toList_ofList]
    exact (hformed r hr).name
  -- the colon of the name that is taken for a bound is there, but no name is read that it ends
  let s : Scan := ⟨':', false, 0⟩
  have hone : (s.run (q.name ++ [':'])).colons = 0 + 1 := Scan.colons_run_name hq.name (by decide)
  obtain ⟨s', hs', hle, hrun⟩ := ((passes_of_looksLikeType hq.name hlooks hclass).leads.trans
    (leads_of_skipInterfaceBounds? hbounds)) (s.run (q.name ++ [':']))
    (by rw [Scan.last_run_concat]; decide)
  have hall : (s'.run afterBounds).colons = (q :: parameters).length := by
    have hsame : s'.run afterBounds =
        (s.run ((q :: parameters).flatMap Parameter.text)).run ('>' :: tail) := by
      rw [← hrun, ← Scan.run_append, ← Scan.run_append]
      simp [after, Parameter.text]
    rw [hsame, Scan.colons_run (by simpa using htail),
      (Scan.run_parameters hformed rfl (by decide)).2, Nat.zero_add]
  have hfew := hcount hidents s' hs'
  rw [hall, List.length_map] at hfew
  omega

theorem readParameters?_ne {bound : Nat} {parameters : List Parameter}
    (hformed : ∀ p ∈ parameters, p.WellFormed) (hmisread : ¬Legible parameters)
    (hbound : 2 * (parameters.flatMap Parameter.text).length ≤ bound) {tail : List Char}
    (htail : ':' ∉ tail) (acc : List String) (rest : List Char) {n : Nat}
    (hn : (parameters.flatMap Parameter.text).length ≤ n) :
    readParameters? bound acc n (parameters.flatMap Parameter.text ++ '>' :: tail) ≠
      some (acc.reverse ++ parameters.map (String.ofList ·.name), rest) := by
  induction parameters generalizing acc n with
  | nil => exact absurd .nil hmisread
  | cons p parameters ih =>
    obtain ⟨hp, hformed⟩ := List.forall_mem_cons.mp hformed
    have hpos := p.text_pos
    rw [List.flatMap_cons, List.length_append] at hbound hn
    obtain ⟨n, rfl⟩ := Nat.exists_eq_add_one_of_ne_zero (show n ≠ 0 by omega)
    by_cases hnext : ∀ q ∈ parameters.head?, p.Bare → ¬q.LooksLikeType
    · -- this parameter is read, and one of those behind it is not
      obtain ⟨c, rest', hcons, hcolon, hstart⟩ := exists_next hformed hnext tail
      have hrest := ih hformed (fun h => hmisread (List.isChain_cons.mpr ⟨hnext, h⟩)) (by omega)
        (String.ofList p.name :: acc) (show _ ≤ n by omega)
      rw [hcons] at hrest
      rw [List.flatMap_cons, List.append_assoc, hcons,
        readParameters?_cons hp (by omega) acc (by omega) hcolon hstart]
      simpa using hrest
    · push Not at hnext
      obtain ⟨q, hq, hbare, hlooks⟩ := hnext
      obtain ⟨others, rfl⟩ := List.head?_eq_some_iff.mp hq
      exact readParameters?_misread hp hformed hbare hlooks htail bound acc n rest

/-! ## Whole signatures -/

theorem colon_not_mem_flatten {texts : List (List Char)} {types : List ClassType}
    (h : List.Forall₂ Class texts types) : ':' ∉ texts.flatten := by
  induction h with
  | nil => exact List.not_mem_nil
  | cons htype _ ih =>
    rw [List.flatten_cons, List.mem_append, not_or]
    exact ⟨htype.colon_not_mem, ih⟩

theorem legible_of_read? {bound : Nat} {parameters : List Parameter} {superText : List Char}
    {superclass : ClassType} {interfaceTexts : List (List Char)} {interfaces : List ClassType}
    (hformed : ∀ p ∈ parameters, p.WellFormed) (hsuper : Class superText superclass)
    (hinterfaces : List.Forall₂ Class interfaceTexts interfaces)
    (hbound : 2 * (parametersText parameters ++ superText ++ interfaceTexts.flatten).length ≤ bound)
    (h : read? bound (parametersText parameters ++ superText ++ interfaceTexts.flatten) =
      some { parameters := parameters.map (String.ofList ·.name), superclass, interfaces }) :
    Legible parameters := by
  by_contra hmisread
  cases parameters with
  | nil => exact hmisread .nil
  | cons p parameters =>
    have htail : ':' ∉ superText ++ interfaceTexts.flatten := by
      rw [List.mem_append, not_or]
      exact ⟨hsuper.colon_not_mem, colon_not_mem_flatten hinterfaces⟩
    have htext : parametersText (p :: parameters) =
        '<' :: ((p :: parameters).flatMap Parameter.text ++ ['>']) := rfl
    simp only [List.length_append] at hbound
    rw [htext, List.length_cons, List.length_append] at hbound
    rw [htext, List.append_assoc, List.cons_append, List.append_assoc, List.singleton_append,
      read?] at h
    obtain ⟨⟨names, rest⟩, hnames, h⟩ := Option.bind_eq_some_iff.mp h
    obtain ⟨⟨superRead, afterSuper⟩, -, h⟩ := Option.bind_eq_some_iff.mp h
    obtain ⟨interfacesRead, -, h⟩ := Option.bind_eq_some_iff.mp h
    injection h with h
    injection h with hparameters
    subst hparameters
    exact readParameters?_ne hformed hmisread (by omega) htail [] rest (show _ ≤ bound by omega)
      hnames

/-- A signature is read as what it declares exactly if no type parameter hides another one. -/
theorem parse_eq_ok_iff_legible {parameters : List Parameter} {text : String}
    {signature : ClassSignature} (h : Declares parameters text.toList signature) :
    parse text = .ok signature ↔ Legible parameters := by
  refine ⟨fun hparse => ?_, parse_of_declares h⟩
  have hread : read? (boundFor text.toList) text.toList = some signature := by
    rw [parse, parse?] at hparse
    cases hsignature : read? (boundFor text.toList) text.toList with
    | none =>
      rw [hsignature] at hparse
      cases hparse
    | some read =>
      rw [hsignature] at hparse
      cases hparse
      rfl
  generalize text.toList = chars at h hread
  cases h with
  | mk hformed hsuper hinterfaces =>
    exact legible_of_read? hformed hsuper hinterfaces (by rw [boundFor]; omega) hread

/-- Two type parameters without a class bound and with one. -/
def pairParameters : List Parameter :=
  [{ name := ['A'], classBound := none, interfaceBounds := [['L', 'p', '/', 'I', ';']] },
    { name := ['T'], classBound := some ['T', 'A', ';'], interfaceBounds := [['[', '[', 'I']] }]

/-- What a class declares that extends a nested class and implements an interface. -/
def pairSignature : ClassSignature :=
  { parameters := ["A", "T"]
    superclass := .mk "p/O$N" [.wildcard, .lower (.variable "T"), .exact (.array (.base 'J'))]
    interfaces := [.mk "I" [.upper (.variable "A")]] }

theorem pairSignature_declared : Declares pairParameters
    "<A::Lp/I;T:TA;:[[I>Lp/O<TA;>.N<*-TT;[J>;LI<+TA;>;".toList pairSignature := by
  have ha : Identifier ['A'] := .singleton (by decide)
  have ht : Identifier ['T'] := .singleton (by decide)
  have hi : Identifier ['I'] := .singleton (by decide)
  have hp : Package ['p', '/'] := .cons (.singleton (by decide)) .nil
  have hformed : ∀ p ∈ pairParameters, p.WellFormed := by
    have hinterface := Reference.ofClass (.mk hp hi .none .stop)
    have harray := Reference.array (.baseArray (show 'I' ∈ baseLetters by decide))
    simp only [pairParameters, List.forall_mem_cons]
    refine ⟨⟨ha, by simp, ?_⟩, ⟨ht, ?_, ?_⟩, by simp⟩
    · simpa using ⟨_, hinterface⟩
    · simpa using ⟨_, Reference.variable ha⟩
    · simpa using ⟨_, harray⟩
  have hsuper := Class.mk hp (.singleton (c := 'O') (by decide))
    (.some (.one (.exact (.variable ha))))
    (.cons (.singleton (c := 'N') (by decide))
      (.some (.cons .wildcard (.cons (.lower (.variable ht)) (.one (.exact
        (.baseArray (show 'J' ∈ baseLetters by decide)))))))
      .stop)
  have hinterface := Class.mk .nil hi (.some (.one (.upper (.variable ha)))) .stop
  exact .mk hformed hsuper (.cons hinterface .nil)

theorem parse_eq_ok_iff_legible_pair : Declares pairParameters
      "<A::Lp/I;T:TA;:[[I>Lp/O<TA;>.N<*-TT;[J>;LI<+TA;>;".toList pairSignature ∧
    Legible pairParameters ∧
    parse "<A::Lp/I;T:TA;:[[I>Lp/O<TA;>.N<*-TT;[J>;LI<+TA;>;" = .ok pairSignature := by
  have hlegible : Legible pairParameters := by
    simp [Legible, pairParameters, Parameter.Bare]
  exact ⟨pairSignature_declared, hlegible,
    (parse_eq_ok_iff_legible pairSignature_declared).mpr hlegible⟩

/-- Two type parameters without bounds, the second one with a name that starts like a type. -/
def bareParameters : List Parameter :=
  [{ name := ['A'], classBound := none, interfaceBounds := [] },
    { name := ['T', 'B'], classBound := none, interfaceBounds := [] }]

def bareSignature : ClassSignature :=
  { parameters := ["A", "TB"], superclass := .mk "O" [], interfaces := [] }

theorem parse_bareParameters :
    Declares bareParameters "<A:TB:>LO;".toList bareSignature ∧
      parse "<A:TB:>LO;" = .error (.invalidDescriptor "<A:TB:>LO;") := by
  refine ⟨.mk ?_ (.mk .nil (.singleton (c := 'O') (by decide)) .none .stop) .nil, by rfl⟩
  have hname : Identifier ['T', 'B'] := ⟨by simp, by simp [reserved]⟩
  simp only [bareParameters, List.forall_mem_cons]
  exact ⟨⟨.singleton (by decide), by simp, by simp⟩, ⟨hname, by simp, by simp⟩, by simp⟩

end ClassPatch.ClassSignature
