import Mathlib
import ClassPatch.Proofs.Rewrite.NewBody
import ClassPatch.Proofs.Rewrite.Stored

/-!
# Replacing bodies again

Patches that are applied again to the class that they have made find the same methods, make the
same code from constants that are all there by now, and put it in the same places. Bodies that are
overwritten by later patches come and go once more on the way. This is so as long as the added
constants do not give a name to what had none before.
-/

namespace ClassPatch

open Code ConstantPool

namespace ClassFile

/-! ## What is found again -/

/-- Constants that were added since do not make a method one of those that a patch is for, and do
not give an attribute of a method the name of those for parameters. -/
structure Settled (patches : List MethodPatch) (c later : ClassFile) : Prop where
  named : ∀ patch ∈ patches, ∀ m ∈ c.methods,
    later.isNamed patch.method patch.descriptor m = true →
      c.isNamed patch.method patch.descriptor m = true
  parameters : ∀ m ∈ c.methods, ∀ a ∈ m.attributes,
    later.pool.getText a.nameIndex = .ok "MethodParameters" →
      c.pool.getText a.nameIndex = .ok "MethodParameters"

variable {c c' later : ClassFile} {index : Nat} {value : ConstantValue}

/-- A method that can return a value still can. -/
theorem checkReplacement_grows {r : Replacement} (hgrows : c.pool.Grows later.pool)
    (hsame : List.Forall₂ Member.Resembles c.methods later.methods)
    (h : checkReplacement index value c = .ok r) : checkReplacement index value later = .ok r := by
  unfold checkReplacement at h ⊢
  cases hm : c.methods[index]? with
  | none =>
    rw [hm] at h
    cases h
  | some m =>
    obtain ⟨m', hm', hresembles⟩ := exists_getElem?_of_left hsame hm
    rw [hm] at h
    rw [hm']
    dsimp only at h ⊢
    obtain ⟨names, hnames, h⟩ := Success.except_bind.mp h
    refine Success.except_bind.mpr ⟨names, memberNames_grows hgrows hresembles hnames, ?_⟩
    have hstatic : m'.isStatic = m.isStatic := hresembles.has_eq (by decide)
    rw [hresembles.has_eq (by decide), hstatic]
    exact h

/-- The methods that a patch is for are the same. -/
theorem findMethods_congr {name : String} {descriptor : Option String}
    (h : List.Forall₂ (fun m m' =>
      c.isNamed name descriptor m = later.isNamed name descriptor m') c.methods later.methods) :
    later.findMethods name descriptor = c.findMethods name descriptor := by
  unfold findMethods
  generalize c.methods = ms, later.methods = ms', 0 = start at h ⊢
  induction h generalizing start with
  | nil => rfl
  | @cons m m' ms ms' hsame _ ih =>
    have hrest := ih (start + 1)
    by_cases hnamed : c.isNamed name descriptor m
    · have hnamed' := hsame.symm.trans hnamed
      simp [List.zipIdx_cons, hnamed, hnamed', hrest]
    · have hnamed' : ¬later.isNamed name descriptor m' = true := hsame ▸ hnamed
      simp [List.zipIdx_cons, hnamed, hnamed', hrest]

theorem Settled.findMethods_eq {patches : List MethodPatch} {patch : MethodPatch}
    (h : Settled patches c later) (hpatch : patch ∈ patches) (hgrows : c.pool.Grows later.pool)
    (hsame : List.Forall₂ Member.Resembles c.methods later.methods) :
    later.findMethods patch.method patch.descriptor =
      c.findMethods patch.method patch.descriptor := by
  apply findMethods_congr
  refine ((List.forall₂_and_left _ _).mpr ⟨fun m hm => hm, hsame⟩).imp fun m m' hmm' => ?_
  obtain ⟨hm, hresembles⟩ := hmm'
  rw [Bool.eq_iff_iff]
  constructor
  · exact isNamed_grows hgrows hresembles
  · intro hnamed
    exact h.named patch hpatch m hm (isNamed_grows (.refl later.pool) hresembles.symm hnamed)

/-- All names and descriptors of the methods, and the names of their attributes, are texts of the
pool. -/
def MethodsResolve (c : ClassFile) : Prop :=
  ∀ m ∈ c.methods, (∃ names, c.memberNames m = .ok names) ∧
    ∀ a ∈ m.attributes, ∃ text, c.pool.getText a.nameIndex = .ok text

/-- What has a name already does not get another one. -/
theorem MethodsResolve.settled (h : c.MethodsResolve) (hgrows : c.pool.Grows later.pool)
    (patches : List MethodPatch) : Settled patches c later := by
  constructor
  · intro patch _ m hm hnamed
    obtain ⟨names, hnames⟩ := (h m hm).1
    have hlater := memberNames_grows hgrows (.refl m) hnames
    unfold isNamed at hnamed ⊢
    rw [hlater] at hnamed
    rw [hnames]
    exact hnamed
  · intro m hm a ha hparameters
    obtain ⟨text, htext⟩ := (h m hm).2 a ha
    rw [htext]
    exact (hgrows.getText htext).symm.trans hparameters

/-- After bodies were given, the same is found again as before. -/
theorem Settled.of_rebodied {patches : List MethodPatch} {e : ClassFile}
    (h : Settled patches c later) (hgrows : c.pool.Grows c'.pool) (hpool : e.pool = later.pool)
    (hrebodied : List.Forall₂ (Member.Rebodied later.pool) c.methods c'.methods) :
    Settled patches c' e := by
  constructor
  · intro patch hpatch m' hm' hnamed
    obtain ⟨m, hm, hbody⟩ := exists_of_mem_right hrebodied hm'
    have hback : e.pool.Grows later.pool := hpool ▸ .refl e.pool
    exact isNamed_grows hgrows hbody.resembles
      (h.named patch hpatch m hm (isNamed_grows hback hbody.resembles.symm hnamed))
  · intro m' hm' a ha hparameters
    obtain ⟨m, hm, hbody⟩ := exists_of_mem_right hrebodied hm'
    rw [hpool] at hparameters
    rcases hbody.names a ha with hcode | ⟨b, hb, hsame⟩
    · rw [hcode] at hparameters
      exact absurd (Except.ok.inj hparameters) (by decide)
    · rw [← hsame] at hparameters ⊢
      exact hgrows.getText (h.parameters m hm b hb hparameters)

/-! ## Edits that can be replayed -/

/-- The edit is confined to methods. Made again in a later class with the same methods, it gives
them the same bodies as before and adds no constants. -/
structure Replays {α : Type} (patches : List MethodPatch) (x : ClassEdit α) : Prop where
  keeps : Keeps Confined x
  again : ∀ c a c' later, x c = .ok a c' → c'.pool.Grows later.pool →
    List.Forall₂ Member.Resembles c.methods later.methods → Settled patches c later →
    ∃ bodies : List NewBody, (∀ b ∈ bodies, b.Known later.pool) ∧
      c'.methods = NewBody.putAll later.pool bodies c.methods ∧
      x later = .ok a { later with methods := NewBody.putAll later.pool bodies later.methods }

namespace Replays

variable {α β : Type} {patches : List MethodPatch}

theorem pure (a : α) : Replays patches (Pure.pure a : ClassEdit α) := by
  refine ⟨.pure a, ?_⟩
  intro c b c' later h _ _ _
  obtain ⟨rfl, rfl⟩ := Success.state_pure.mp h
  exact ⟨[], by simp, rfl, rfl⟩

theorem bind {x : ClassEdit α} {f : α → ClassEdit β} (hx : Replays patches x)
    (hf : ∀ a, Replays patches (f a)) : Replays patches (x >>= f) := by
  refine ⟨hx.keeps.bind fun a => (hf a).keeps, ?_⟩
  intro c b c' later h hgrows hsame hsettled
  obtain ⟨a, c₁, ha, hb⟩ := Success.state_bind.mp h
  have hfirst := hx.keeps.of_ok ha
  have hsecond := (hf a).keeps.of_ok hb
  obtain ⟨bodies, hknown, hmethods, hrun⟩ :=
    hx.again c a c₁ later ha (hsecond.pool.grows.trans hgrows) hsame hsettled
  -- the rest is replayed in the class that the first step has left
  have hrebodied : List.Forall₂ (Member.Rebodied later.pool) c.methods c₁.methods := by
    rw [hmethods]
    exact NewBody.rebodied_putAll hknown
  have hrebodied' : List.Forall₂ (Member.Rebodied later.pool) later.methods
      (NewBody.putAll later.pool bodies later.methods) := NewBody.rebodied_putAll hknown
  have hsame' : List.Forall₂ Member.Resembles c₁.methods
      (NewBody.putAll later.pool bodies later.methods) := by
    have hback := forall₂_trans (hrebodied.imp fun _ _ h => h.resembles.symm).flip hsame
      fun _ _ _ _ h h' => h.trans h'
    exact forall₂_trans hback hrebodied' fun _ _ _ _ h h' => h.trans h'.resembles
  obtain ⟨more, hmore, hmethods', hrun'⟩ := (hf a).again c₁ b c'
    { later with methods := NewBody.putAll later.pool bodies later.methods } hb hgrows hsame'
    (hsettled.of_rebodied hfirst.pool.grows rfl hrebodied)
  refine ⟨bodies ++ more, List.forall_mem_append.mpr ⟨hknown, hmore⟩, ?_, ?_⟩
  · rw [NewBody.putAll_append, ← hmethods]
    exact hmethods'
  · rw [Success.state_bind_ok hrun, hrun', NewBody.putAll_append]

theorem forM {f : α → ClassEdit PUnit} {as : List α} (hf : ∀ a ∈ as, Replays patches (f a)) :
    Replays patches (as.forM f) := by
  induction as with
  | nil => exact pure _
  | cons a as ih =>
    exact bind (hf a List.mem_cons_self) fun _ => ih fun a' ha' => hf a' (List.mem_cons_of_mem a ha')

end Replays

theorem modify_congr {α : Type} {f g : α → α} {as : List α} (h : ∀ a ∈ as, f a = g a)
    (index : Nat) : as.modify index f = as.modify index g := by
  induction as generalizing index with
  | nil => rw [List.modify_nil, List.modify_nil]
  | cons a as ih =>
    cases index with
    | zero => rw [List.modify_zero_cons, List.modify_zero_cons, h a List.mem_cons_self]
    | succ index =>
      rw [List.modify_succ_cons, List.modify_succ_cons,
        ih (fun a' ha' => h a' (List.mem_cons_of_mem a ha')) index]

/-- Replacing a body again makes the same code from the same constants. -/
theorem replays_replaceBody {patches : List MethodPatch} (index : Nat) (value : ConstantValue) :
    Replays patches (replaceBody index value) := by
  refine ⟨Confined.keeps_replaceBody index value, ?_⟩
  intro c a c' later h hgrows hsame hsettled
  obtain ⟨r, code, data, nameIndex, grown, pool, hr, hcode, hdata, hname, hindex, rfl⟩ :=
    replaceBody_eq_ok.mp h
  obtain ⟨hcodeGrows, hcodeAgain⟩ := PoolEdit.Steady.constantCode value r _ _ _ hcode
  obtain ⟨hnameGrows, hnameAgain⟩ := PoolEdit.Steady.intern (.utf8 "Code") _ _ _ hname
  have htext := (yields_internText "Code" _ _ _ hname).2 pool (.refl pool)
  refine ⟨[⟨index, nameIndex, data⟩], ?_, ?_, ?_⟩
  · intro b hb
    obtain rfl := List.mem_singleton.mp hb
    exact hgrows.find? (find?_of_intern hname)
  · -- the attributes that are taken away are the same in the later pool
    apply modify_congr
    intro m hm
    refine (Member.withBody_grows hgrows htext fun a ha hparameters => ?_).symm
    exact (hcodeGrows.trans hnameGrows).getText (hsettled.parameters m hm a ha hparameters)
  · refine replaceBody_eq_ok.mpr ⟨r, code, data, nameIndex, later.pool, later.pool,
      checkReplacement_grows (hcodeGrows.trans (hnameGrows.trans hgrows)) hsame hr,
      hcodeAgain later.pool (hnameGrows.trans hgrows), hdata, hnameAgain later.pool hgrows, ?_, rfl⟩
    rw [← hsame.length_eq]
    exact hindex

theorem replays_replaceMethods {patches : List MethodPatch} {patch : MethodPatch}
    (hpatch : patch ∈ patches) (value : ConstantValue) :
    Replays patches (replaceMethods patch.method patch.descriptor value) := by
  refine ⟨Confined.keeps_replaceMethods _ _ _, ?_⟩
  intro c n c' later h hgrows hsame hsettled
  have hbodies : Replays patches (do
      (c.findMethods patch.method patch.descriptor).forM (replaceBody · value)
      return (c.findMethods patch.method patch.descriptor).length) :=
    (Replays.forM fun index _ => replays_replaceBody index value).bind fun _ => .pure _
  have hconfined := (Confined.keeps_replaceMethods _ _ _).of_ok h
  obtain ⟨_, _, hget, hrun⟩ := Success.state_bind.mp h
  cases hget
  -- the later class is searched for the same methods
  have hfind := hsettled.findMethods_eq hpatch (hconfined.pool.grows.trans hgrows) hsame
  obtain ⟨bodies, hknown, hmethods, hagain⟩ := hbodies.again c n c' later hrun hgrows hsame hsettled
  refine ⟨bodies, hknown, hmethods, Success.state_bind.mpr ⟨later, later, rfl, ?_⟩⟩
  rw [hfind]
  exact hagain

end ClassFile

/-! ## Patches -/

open ClassFile

/-- Applying patches to a class that they have made leaves it as it is. -/
theorem MethodPatch.applyAll_again {patches : List MethodPatch} {c c' : ClassFile}
    (h : applyAll patches c = .ok () c')
    (hsettled : ∀ name, c.name = .ok name →
      Settled (patches.filter (·.className = name)) c c') :
    applyAll patches c' = .ok () c' := by
  have hconfined := (keeps_applyAll patches).of_ok h
  obtain ⟨name, _, hlookup, hrun⟩ := Success.state_bind.mp h
  obtain ⟨hname, rfl⟩ := ClassEdit.check_eq_ok.mp hlookup
  have hpatches : Replays (patches.filter (·.className = name))
      ((patches.filter (·.className = name)).forM fun patch => do
        let _ ← replaceMethods patch.method patch.descriptor patch.value) :=
    .forM fun patch hpatch => (replays_replaceMethods hpatch patch.value).bind fun _ => .pure _
  obtain ⟨bodies, hknown, hmethods, hagain⟩ := hpatches.again c () c' c' hrun (.refl c'.pool)
    hconfined.methods (hsettled name hname)
  refine Success.state_bind.mpr ⟨name, c', ClassEdit.check_eq_ok.mpr
    ⟨hconfined.name_eq hname, rfl⟩, ?_⟩
  rw [hagain]
  -- all bodies are in place already
  have hsame : NewBody.putAll c'.pool bodies c'.methods = c'.methods := by
    rw [hmethods, NewBody.putAll_putAll hknown]
  rw [hsame]

/-! ## The transformer -/

namespace Transformer

/-- In a class whose methods have all their names, the constants that are added name nothing. -/
theorem settled_of_methodsResolve {σ : Type} {sink : Sink σ} {name : String}
    {selection : Selection} {patches : List MethodPatch} {entry : Entry} {data : List UInt8}
    {s s' : σ} (hnames : ∀ c, ClassFile.parse entry.data = .ok c → c.MethodsResolve)
    (h : (constantReturn name selection patches).apply sink entry s = (.rewritten data, s')) :
    ∀ c c' className, ClassFile.parse entry.data = .ok c → ClassFile.parse data = .ok c' →
      c.name = .ok className → Settled (patches.filter (·.className = className)) c c' := by
  intro c c' className hparse hparse' _
  obtain ⟨edit, found, found', hsome, hfound, hfound', hedit⟩ := exists_edit_of_rewritten h
  obtain rfl : found = c := Except.ok.inj (hfound.symm.trans hparse)
  obtain rfl : found' = c' := Except.ok.inj (hfound'.symm.trans hparse')
  exact (hnames found hparse).settled ((keeps_edit? hsome).of_ok hedit).pool.grows _

/-- Where methods of an entry were made to return constants, doing so again leaves the entry
unchanged, unless the constants that were added give names to what had none. -/
theorem apply_constantReturn_again {σ : Type} (sink : Sink σ) (name : String)
    (selection : Selection) {patches : List MethodPatch} {entry : Entry} {data : List UInt8}
    {s s' : σ}
    (hsettled : ∀ c c' className, ClassFile.parse entry.data = .ok c →
      ClassFile.parse data = .ok c' → c.name = .ok className →
      Settled (patches.filter (·.className = className)) c c')
    (h : (constantReturn name selection patches).apply sink entry s = (.rewritten data, s')) :
    ∀ s, (constantReturn name selection patches).apply sink { entry with data } s =
      (.unchanged, s) := by
  obtain ⟨edit, c, c', hsome, hparse, hparse', hedit⟩ := exists_edit_of_rewritten h
  cases hsome
  intro s
  exact apply_again rfl hparse' <| MethodPatch.applyAll_again hedit fun className hname =>
    hsettled c c' className hparse hparse' hname

/-- A class `A` with methods `f` of two descriptors, without code. -/
def overloads : ClassFile where
  minorVersion := 0
  majorVersion := 52
  pool := ⟨#[.unusable, .utf8 "A", .classRef 1, .utf8 "f", .utf8 "()I", .utf8 "(J)I"]⟩
  access := Access.publicFlag
  thisClass := 2
  superClass := 0
  interfaces := []
  fields := []
  methods := [⟨Access.publicFlag ||| Access.nativeFlag, 3, 4, []⟩,
    ⟨Access.publicFlag ||| Access.nativeFlag, 3, 5, []⟩]
  attributes := []

/-- A value for both methods, and another one for the second. -/
def overlapping : List MethodPatch :=
  [⟨"A", "f", none, .int 100000⟩, ⟨"A", "f", some "(J)I", .int 200000⟩]

/-- The class after both patches. -/
def overloadsPatched : ClassFile := stateAfter (MethodPatch.applyAll overlapping overloads)

/-- The stored form of a class. -/
def stored (c : ClassFile) : List UInt8 := c.toBytes.toOption.getD []

theorem apply_constantReturn_again_overlapping :
    (∀ c c' className, ClassFile.parse (stored overloads) = .ok c →
      ClassFile.parse (stored overloadsPatched) = .ok c' → c.name = .ok className →
      Settled (overlapping.filter (·.className = className)) c c') ∧
    (constantReturn "constants" ⟨.any, .any⟩ overlapping).apply .collecting
      ⟨"A.class", stored overloads⟩ [] = (.rewritten (stored overloadsPatched), []) ∧
    (constantReturn "constants" ⟨.any, .any⟩ overlapping).apply .collecting
      ⟨"A.class", stored overloadsPatched⟩ [] = (.unchanged, []) := by
  have hparse : ClassFile.parse (stored overloads) = .ok overloads := by decide +kernel
  have hparse' : ClassFile.parse (stored overloadsPatched) = .ok overloadsPatched := by
    decide +kernel
  have hname : overloads.name = .ok "A" := by decide +kernel
  have hsettled : ∀ c c' className, ClassFile.parse (stored overloads) = .ok c →
      ClassFile.parse (stored overloadsPatched) = .ok c' → c.name = .ok className →
      Settled (overlapping.filter (·.className = className)) c c' := by
    intro c c' className hc hc' hclass
    obtain rfl : overloads = c := Except.ok.inj (hparse.symm.trans hc)
    obtain rfl : overloadsPatched = c' := Except.ok.inj (hparse'.symm.trans hc')
    obtain rfl : "A" = className := Except.ok.inj (hname.symm.trans hclass)
    exact ⟨by decide +kernel, by decide +kernel⟩
  have houtcome : ((constantReturn "constants" ⟨.any, .any⟩ overlapping).apply .collecting
      ⟨"A.class", stored overloads⟩ []).1 = .rewritten (stored overloadsPatched) := by
    decide +kernel
  have hrewritten : (constantReturn "constants" ⟨.any, .any⟩ overlapping).apply .collecting
      ⟨"A.class", stored overloads⟩ [] = (.rewritten (stored overloadsPatched), []) :=
    Prod.ext houtcome rfl
  exact ⟨hsettled, hrewritten,
    apply_constantReturn_again .collecting "constants" ⟨.any, .any⟩ hsettled hrewritten []⟩

/-- A class `A` with a method `g`, and one whose name is to be constant 6. There is no such
constant. -/
def danglingMethod : ClassFile :=
  { overloads with
    pool := ⟨#[.unusable, .utf8 "A", .classRef 1, .utf8 "g", .utf8 "()Ljava/lang/String;",
      .utf8 "()V"]⟩
    methods := [⟨Access.publicFlag ||| Access.nativeFlag, 3, 4, []⟩,
      ⟨Access.publicFlag ||| Access.nativeFlag, 6, 5, []⟩] }

/-- A class `B` with methods `f` and `g`. The first one has an attribute whose name is to be
constant 8. There is no such constant. -/
def danglingAttribute : ClassFile :=
  { overloads with
    pool := ⟨#[.unusable, .utf8 "B", .classRef 1, .utf8 "f", .utf8 "()V", .utf8 "g",
      .utf8 "()Ljava/lang/String;"]⟩
    methods := [⟨Access.publicFlag ||| Access.nativeFlag, 3, 4, [⟨8, []⟩]⟩,
      ⟨Access.publicFlag ||| Access.nativeFlag, 5, 6, []⟩] }

/-- The values of `g` are texts that become the missing constants. -/
def naming : List MethodPatch :=
  [⟨"A", "f", none, .void⟩, ⟨"A", "g", none, .string "f"⟩,
    ⟨"B", "f", none, .void⟩, ⟨"B", "g", none, .string "MethodParameters"⟩]

/-- The first run adds what the second one then finds: a method by the name of a patch, and an
attribute to be taken away. -/
theorem apply_constantReturn_danglingNames :
    (∃ data, (constantReturn "constants" ⟨.any, .any⟩ naming).apply .collecting
        ⟨"A.class", stored danglingMethod⟩ [] = (.rewritten data, []) ∧
      (constantReturn "constants" ⟨.any, .any⟩ naming).apply .collecting
        ⟨"A.class", data⟩ [] ≠ (.unchanged, [])) ∧
    ∃ data, (constantReturn "constants" ⟨.any, .any⟩ naming).apply .collecting
        ⟨"B.class", stored danglingAttribute⟩ [] = (.rewritten data, []) ∧
      (constantReturn "constants" ⟨.any, .any⟩ naming).apply .collecting
        ⟨"B.class", data⟩ [] ≠ (.unchanged, []) := by
  have hruns : ∀ entry ∈ [("A.class", danglingMethod), ("B.class", danglingAttribute)],
      ((constantReturn "constants" ⟨.any, .any⟩ naming).apply .collecting
        ⟨entry.1, stored entry.2⟩ []).1 =
          .rewritten (stored (stateAfter (MethodPatch.applyAll naming entry.2))) ∧
      ((constantReturn "constants" ⟨.any, .any⟩ naming).apply .collecting
        ⟨entry.1, stored (stateAfter (MethodPatch.applyAll naming entry.2))⟩ []).1 ≠
          .unchanged := by
    decide +kernel
  obtain ⟨hmethod, hmethod'⟩ := hruns ("A.class", danglingMethod) (by simp)
  obtain ⟨hattribute, hattribute'⟩ := hruns ("B.class", danglingAttribute) (by simp)
  exact ⟨⟨_, Prod.ext hmethod rfl, fun h => hmethod' (congrArg Prod.fst h)⟩,
    ⟨_, Prod.ext hattribute rfl, fun h => hattribute' (congrArg Prod.fst h)⟩⟩

end Transformer

end ClassPatch
