import Mathlib
import ClassPatch.TypeResolution

/-!
# Nearest bindings

Which class a subclass gives to a base as its argument, said without the walk that looks for it: the
argument of the nearest ancestor that instantiates the base with a concrete class. A resolver answers
this for every call, whatever it was asked before, and remembers one answer for each class.
-/

namespace ClassPatch

/-- The type instantiates the base, and its first argument is a class without arguments. -/
def ClassType.Binds (type : ClassType) (base found : String) : Prop :=
  ∃ others, type = .mk base (.exact (.ofClass (.raw found)) :: others)

namespace Hierarchy

variable {h : Hierarchy} {base name found : String} {superclass type : ClassType} {limit : Nat}

/-! ## Ancestors -/

/-- The type that stands a number of superclasses above a class. Above the root nothing more is
reached; only the class one starts from may be the root and have a superclass. -/
inductive Ancestor (h : Hierarchy) : Nat → String → ClassType → Prop
  | direct {name : String} {superclass : ClassType} :
      h.super? name = some superclass → Ancestor h 1 name superclass
  | above {steps : Nat} {name : String} {superclass type : ClassType} :
      h.super? name = some superclass → superclass.name ≠ root →
      Ancestor h steps superclass.name type → Ancestor h (steps + 1) name type

/-- The class is the argument of the nearest ancestor that binds the base, and that ancestor stands
no more than `limit` superclasses above. -/
def FirstBinding (h : Hierarchy) (base : String) (limit : Nat) (name found : String) : Prop :=
  ∃ steps type, steps ≤ limit ∧ h.Ancestor steps name type ∧ type.Binds base found ∧
    ∀ nearer between, nearer < steps → h.Ancestor nearer name between →
      ∀ other, ¬between.Binds base other

theorem FirstBinding.mono {limit' : Nat} (hlimit : limit ≤ limit')
    (hfirst : h.FirstBinding base limit name found) : h.FirstBinding base limit' name found := by
  obtain ⟨steps, type, hsteps, hrest⟩ := hfirst
  exact ⟨steps, type, hsteps.trans hlimit, hrest⟩

theorem Ancestor.steps_pos {steps : Nat} (hancestor : h.Ancestor steps name type) : 0 < steps := by
  cases hancestor with
  | direct _ => exact Nat.one_pos
  | above _ _ _ => exact Nat.succ_pos _

/-- A class without superclass has no ancestors. -/
theorem Ancestor.ne_none {steps : Nat} (hancestor : h.Ancestor steps name type) :
    h.super? name ≠ none := by
  cases hancestor with
  | direct hsuper => simp [hsuper]
  | above hsuper _ _ => simp [hsuper]

theorem ancestor_one (hsuper : h.super? name = some superclass) :
    h.Ancestor 1 name type ↔ type = superclass := by
  constructor
  · intro hancestor
    cases hancestor with
    | direct hother => exact Option.some.inj (hother.symm.trans hsuper)
    | above _ _ hzero => exact absurd hzero.steps_pos (Nat.lt_irrefl 0)
  · rintro rfl
    exact .direct hsuper

theorem ancestor_succ (hsuper : h.super? name = some superclass) {steps : Nat} (hsteps : 0 < steps) :
    h.Ancestor (steps + 1) name type ↔
      superclass.name ≠ root ∧ h.Ancestor steps superclass.name type := by
  constructor
  · intro hancestor
    cases hancestor with
    | direct _ => exact absurd hsteps (Nat.lt_irrefl 0)
    | above hother hroot hrest =>
      obtain rfl := Option.some.inj (hother.symm.trans hsuper)
      exact ⟨hroot, hrest⟩
  · intro hrest
    exact .above hsuper hrest.1 hrest.2

/-! ## The walk -/

theorem argument?_eq_some :
    argument? base superclass = some found ↔ superclass.Binds base found := by
  obtain ⟨name, arguments⟩ := superclass
  unfold argument? ClassType.Binds
  by_cases hname : name = base
  · subst hname
    rw [if_pos (show (ClassType.mk name arguments).name = name from rfl)]
    cases arguments with
    | nil => simp [ClassType.arguments]
    | cons argument others =>
      have hargument : argument.concreteClass? = some found ↔
          argument = .exact (.ofClass (.raw found)) := by
        unfold TypeArgument.concreteClass? ClassType.raw
        split
        · simp
        · rename_i hother
          refine iff_of_false (by simp) ?_
          rintro rfl
          exact hother found rfl
      simp [ClassType.arguments, hargument]
  · rw [if_neg (show ¬(ClassType.mk name arguments).name = base from hname)]
    simp [hname]

/-- A superclass that binds the base is the nearest ancestor that does. -/
theorem firstBinding_of_binds {other : String} (hsuper : h.super? name = some superclass)
    (hbinds : superclass.Binds base other) :
    h.FirstBinding base (limit + 1) name found ↔ superclass.Binds base found := by
  constructor
  · intro hfirst
    obtain ⟨steps, type, -, hancestor, hfound, hnone⟩ := hfirst
    have hpos := hancestor.steps_pos
    by_cases hone : steps = 1
    · subst hone
      obtain rfl := (ancestor_one hsuper).mp hancestor
      exact hfound
    · exact absurd hbinds (hnone 1 superclass (by omega) (.direct hsuper) other)
  · intro hfound
    refine ⟨1, superclass, by omega, .direct hsuper, hfound, ?_⟩
    intro nearer between hnearer hbetween
    have hpos := hbetween.steps_pos
    omega

/-- A superclass that does not bind the base is passed over, unless it is the root. -/
theorem firstBinding_of_not_binds (hsuper : h.super? name = some superclass)
    (hnot : ∀ other, ¬superclass.Binds base other) :
    h.FirstBinding base (limit + 1) name found ↔
      superclass.name ≠ root ∧ h.FirstBinding base limit superclass.name found := by
  constructor
  · intro hfirst
    obtain ⟨steps, type, hlimit, hancestor, hfound, hnone⟩ := hfirst
    obtain ⟨steps, rfl⟩ : ∃ n, steps = n + 1 := ⟨steps - 1, by have := hancestor.steps_pos; omega⟩
    rcases Nat.eq_zero_or_pos steps with rfl | hpos
    · obtain rfl := (ancestor_one hsuper).mp hancestor
      exact absurd hfound (hnot found)
    · obtain ⟨hroot, hrest⟩ := (ancestor_succ hsuper hpos).mp hancestor
      refine ⟨hroot, steps, type, by omega, hrest, hfound, ?_⟩
      intro nearer between hnearer hbetween
      exact hnone (nearer + 1) between (by omega) (.above hsuper hroot hbetween)
  · intro hfirst
    obtain ⟨hroot, steps, type, hlimit, hancestor, hfound, hnone⟩ := hfirst
    refine ⟨steps + 1, type, by omega, .above hsuper hroot hancestor, hfound, ?_⟩
    intro nearer between hnearer hbetween
    obtain ⟨nearer, rfl⟩ : ∃ n, nearer = n + 1 := ⟨nearer - 1, by have := hbetween.steps_pos; omega⟩
    rcases Nat.eq_zero_or_pos nearer with rfl | hpos
    · obtain rfl := (ancestor_one hsuper).mp hbetween
      exact hnot
    · exact hnone nearer between (by omega) ((ancestor_succ hsuper hpos).mp hbetween).2

/-- The walk finds the nearest binding, on any table of superclasses, with cycles or without. -/
theorem walk_eq_some : h.walk base limit name = some found ↔
    h.FirstBinding base limit name found := by
  induction limit generalizing name with
  | zero =>
    refine iff_of_false (by simp [walk]) ?_
    rintro ⟨steps, type, hlimit, hancestor, -⟩
    have hpos := hancestor.steps_pos
    omega
  | succ limit ih =>
    rw [walk]
    cases hsuper : h.super? name with
    | none =>
      refine iff_of_false (by simp) ?_
      rintro ⟨steps, type, -, hancestor, -⟩
      exact hancestor.ne_none hsuper
    | some superclass =>
      dsimp only
      cases hargument : argument? base superclass with
      | some other =>
        have hbinds := argument?_eq_some.mp hargument
        rw [firstBinding_of_binds hsuper hbinds, ← argument?_eq_some, hargument]
      | none =>
        have hnot : ∀ other, ¬superclass.Binds base other := by
          intro other hbinds
          rw [← argument?_eq_some, hargument] at hbinds
          cases hbinds
        rw [firstBinding_of_not_binds hsuper hnot, ← ih]
        by_cases hroot : superclass.name = root
        · simp [hroot]
        · simp [hroot]

end Hierarchy

/-! ## Calls -/

namespace Resolver

/-- The answers to calls made one after the other. -/
def resolveAll (r : Resolver) : List String → List (Option String) × Resolver
  | [] => ([], r)
  | name :: names =>
    let (answer, r) := r.resolve name
    let (answers, r) := r.resolveAll names
    (answer :: answers, r)

/-- The answer that a call without memory of earlier ones gets. -/
def answer (r : Resolver) (name : String) : Option String :=
  r.hierarchy.walk r.base r.maxDepth name

/-- The resolver holds the answers for the given classes and no others. -/
structure Remembers (r : Resolver) (names : Finset String) : Prop where
  getElem? : ∀ name, r.answers[name]? = if name ∈ names then some (r.answer name) else none
  size_eq : r.size = names.card

/-- The resolvers ask the same question. -/
structure Asks (r r' : Resolver) : Prop where
  base_eq : r'.base = r.base
  hierarchy_eq : r'.hierarchy = r.hierarchy
  maxDepth_eq : r'.maxDepth = r.maxDepth

theorem Asks.answer_eq {r r' : Resolver} (h : r.Asks r') (name : String) :
    r'.answer name = r.answer name := by
  rw [answer, answer, h.base_eq, h.hierarchy_eq, h.maxDepth_eq]

theorem Asks.trans {r r' r'' : Resolver} (h : r.Asks r') (h' : r'.Asks r'') : r.Asks r'' :=
  ⟨h'.base_eq.trans h.base_eq, h'.hierarchy_eq.trans h.hierarchy_eq,
    h'.maxDepth_eq.trans h.maxDepth_eq⟩

theorem remembers_create (base : String) (h : Hierarchy) (limit : Nat) :
    (⟨base, h, limit, ∅⟩ : Resolver).Remembers ∅ :=
  ⟨fun name => by simp, by simp [size]⟩

theorem resolve_of_some {r : Resolver} {name : String} {answer : Option String}
    (h : r.answers[name]? = some answer) : r.resolve name = (answer, r) := by
  rw [resolve, h]

theorem resolve_of_none {r : Resolver} {name : String} (h : r.answers[name]? = none) :
    r.resolve name =
      (r.answer name, { r with answers := r.answers.insert name (r.answer name) }) := by
  rw [resolve, h]
  rfl

/-- One call: a remembered answer is the one that would be found again. -/
theorem Remembers.resolve {r : Resolver} {names : Finset String} (h : r.Remembers names)
    (name : String) : (r.resolve name).1 = r.answer name ∧ r.Asks (r.resolve name).2 ∧
      (r.resolve name).2.Remembers (insert name names) := by
  have hget := h.getElem? name
  by_cases hmem : name ∈ names
  · rw [if_pos hmem] at hget
    rw [resolve_of_some hget, Finset.insert_eq_of_mem hmem]
    exact ⟨rfl, ⟨rfl, rfl, rfl⟩, h⟩
  · rw [if_neg hmem] at hget
    rw [resolve_of_none hget]
    refine ⟨rfl, ⟨rfl, rfl, rfl⟩, fun other => ?_, ?_⟩
    · show (r.answers.insert name (r.answer name))[other]? =
        if other ∈ insert name names then some (r.answer other) else none
      rw [Std.HashMap.getElem?_insert, h.getElem? other]
      by_cases hname : name = other
      · subst hname
        simp
      · simp [hname, Ne.symm hname]
    · have hfresh : name ∉ r.answers := by
        rw [← Std.HashMap.isSome_getElem?_iff_mem, hget]
        exact Bool.false_ne_true
      show (r.answers.insert name (r.answer name)).size = _
      rw [Std.HashMap.size_insert, if_neg hfresh, Finset.card_insert_of_notMem hmem]
      exact congrArg (· + 1) h.size_eq

/-- All calls of a sequence, by induction over it. -/
theorem Remembers.resolveAll {r : Resolver} {before : Finset String} (h : r.Remembers before)
    (names : List String) : (r.resolveAll names).1 = names.map r.answer ∧
      r.Asks (r.resolveAll names).2 ∧
      (r.resolveAll names).2.Remembers (before ∪ names.toFinset) := by
  induction names generalizing r before with
  | nil => exact ⟨rfl, ⟨rfl, rfl, rfl⟩, by rwa [List.toFinset_nil, Finset.union_empty]⟩
  | cons name names ih =>
    obtain ⟨hanswer, hasks, hremembers⟩ := h.resolve name
    obtain ⟨hanswers, hasks', hremembers'⟩ := ih hremembers
    have hsame : (r.resolve name).2.answer = r.answer := funext hasks.answer_eq
    refine ⟨?_, hasks.trans hasks', ?_⟩
    · show (r.resolve name).1 :: ((r.resolve name).2.resolveAll names).1 = _
      rw [hanswer, hanswers, hsame, List.map_cons]
    · rw [List.toFinset_cons, Finset.union_insert, ← Finset.insert_union]
      exact hremembers'

/-- A resolver gives every call the nearest binding within its limit and nothing where there is none,
whatever it was asked before. It remembers one answer for each class it was asked for, and with a
higher limit no class that was found changes. -/
theorem resolveAll_firstBinding (h : Hierarchy) (base : String) (limit : Nat)
    (names : List String) :
    let fresh (limit : Nat) : Resolver := ⟨base, h, limit, ∅⟩
    let run := (fresh limit).resolveAll names
    List.Forall₂ (fun name answer =>
        ∀ found, answer = some found ↔ h.FirstBinding base limit name found) names run.1 ∧
      (∀ name, (run.2.resolve name).1 = ((fresh limit).resolve name).1) ∧
      run.2.size = names.toFinset.card ∧
      (∀ name, name ∈ run.2.answers ↔ name ∈ names) ∧
      ∀ more, List.Forall₂ (fun answer raised => ∀ found, answer = some found → raised = some found)
        run.1 ((fresh (limit + more)).resolveAll names).1 := by
  intro fresh run
  obtain ⟨hanswers, hasks, hremembers⟩ := (remembers_create base h limit).resolveAll names
  rw [Finset.empty_union] at hremembers
  refine ⟨?_, fun name => ?_, hremembers.size_eq, fun name => ?_, fun more => ?_⟩
  · rw [show run.1 = names.map (fresh limit).answer from hanswers, List.forall₂_map_right_iff]
    exact List.forall₂_same.mpr fun name _ found => Hierarchy.walk_eq_some
  · rw [(hremembers.resolve name).1, ((remembers_create base h limit).resolve name).1]
    exact hasks.answer_eq name
  · rw [← List.mem_toFinset, ← Std.HashMap.isSome_getElem?_iff_mem, hremembers.getElem? name]
    by_cases hmem : name ∈ names.toFinset
    · simp [hmem]
    · simp [hmem]
  · obtain ⟨hraised, -⟩ := (remembers_create base h (limit + more)).resolveAll names
    rw [show run.1 = names.map (fresh limit).answer from hanswers, hraised,
      List.forall₂_map_left_iff, List.forall₂_map_right_iff]
    refine List.forall₂_same.mpr fun name _ found hfound => ?_
    exact Hierarchy.walk_eq_some.mpr
      ((Hierarchy.walk_eq_some.mp hfound).mono (Nat.le_add_right limit more))

end Resolver

end ClassPatch
