import Mathlib
import ClassPatch.Proofs.Redirect.Inject
import ClassPatch.Proofs.Rewrite.Stored

/-!
# What a rewrite may change

A rewrite reaches nothing of a class but the bodies of its methods, whatever the class holds
besides and whether its tables are sound or not. A transformer that finds nothing to do in a
class leaves it as it is, so that its bytes come out as they went in.
-/

namespace ClassPatch

open Code Redirect

/-! ## The rest of the class -/

namespace ClassFile

/-- A class with other method bodies. The frame has the version, the flags, the indices of the
class and its superclass, the interfaces, the fields and the attributes of the class; the methods
are the same ones in the same order. Names that resolve keep resolving to the same. -/
structure SameOutside (c c' : ClassFile) : Prop where
  frame : c' = { c with pool := c'.pool, methods := c'.methods }
  methods : List.Forall₂ Member.Resembles c.methods c'.methods
  pool : c.pool.KeepsMeaning c'.pool
  name : c'.name = c.name
  superName : ∀ name, c.superName = .ok name → c'.superName = .ok name
  memberNames : ∀ m m' names, Member.Resembles m m' → c.memberNames m = .ok names →
    c'.memberNames m' = .ok names

variable {c c' : ClassFile}

/-- A class that has a name stays the same outside of its method bodies. -/
theorem Confined.sameOutside (h : c.Confined c') (hname : ∃ name, c.name = .ok name) :
    c.SameOutside c' := by
  have hgrows := h.pool.grows
  refine ⟨h.frame, h.methods, hgrows.keepsMeaning, ?_, ?_, ?_⟩
  · obtain ⟨name, hname⟩ := hname
    rw [h.name_eq hname, hname]
  · intro name hsuper
    have hindex : c'.superClass = c.superClass := by rw [h.frame]
    unfold superName at hsuper ⊢
    rw [hindex]
    by_cases hnone : c.superClass = 0
    · rwa [if_pos hnone] at hsuper ⊢
    · rw [if_neg hnone] at hsuper ⊢
      cases hlookup : c.pool.getClassName c.superClass with
      | error e =>
        rw [hlookup] at hsuper
        cases hsuper
      | ok text =>
        rw [hlookup] at hsuper
        rwa [hgrows.getClassName hlookup]
  · intro m m' names hsame hnames
    exact memberNames_grows hgrows hsame hnames

/-! ## Nothing to replace -/

/-- Where no method has the name, none is replaced. -/
theorem replaceMethods_of_not_named {name : String} {descriptor : Option String}
    (value : ConstantValue) (h : ∀ m ∈ c.methods, c.isNamed name descriptor m = false) :
    replaceMethods name descriptor value c = .ok 0 c := by
  have hnone : c.findMethods name descriptor = [] := by
    rw [findMethods, List.map_eq_nil_iff, List.filter_eq_nil_iff]
    intro p hp
    simp [h p.1 (List.fst_mem_of_mem_zipIdx hp)]
  refine Success.state_bind.mpr ⟨c, c, rfl, ?_⟩
  rw [hnone]
  rfl

end ClassFile

/-- Patches that are for none of the methods of a class leave it as it is. -/
theorem MethodPatch.applyAll_of_not_named {patches : List MethodPatch} {c : ClassFile}
    {name : String} (hname : c.name = .ok name)
    (h : ∀ patch ∈ patches, patch.className = name →
      ∀ m ∈ c.methods, c.isNamed patch.method patch.descriptor m = false) :
    applyAll patches c = .ok () c := by
  refine Success.state_bind.mpr ⟨name, c, ClassEdit.check_eq_ok.mpr ⟨hname, rfl⟩, ?_⟩
  have hnone : ∀ patch ∈ patches.filter (·.className = name),
      ∀ m ∈ c.methods, c.isNamed patch.method patch.descriptor m = false := by
    intro patch hpatch
    simp only [List.mem_filter, decide_eq_true_eq] at hpatch
    exact h patch hpatch.1 hpatch.2
  clear h
  generalize patches.filter (·.className = name) = selected at hnone ⊢
  induction selected with
  | nil => rfl
  | cons patch rest ih =>
    have hfirst := ClassFile.replaceMethods_of_not_named patch.value
      (hnone patch List.mem_cons_self)
    refine Success.state_bind.mpr ⟨(), c, Success.state_bind.mpr ⟨0, c, hfirst, rfl⟩, ?_⟩
    exact ih fun patch hpatch => hnone patch (List.mem_cons_of_mem _ hpatch)

/-! ## Nothing to redirect -/

namespace Redirect

/-- Without calls of targets no constant is added. -/
theorem redirectNodes_of_no_target {site : Site} {targets : List MethodKey} {acc r : Rewritten}
    {nodes : List Node} {pool pool' : ConstantPool}
    (h : redirectNodes site targets acc nodes pool = .ok r pool')
    (hnone : ∀ i, .instruction i ∈ nodes → isTarget pool targets i = false) :
    pool' = pool ∧ r.calls = acc.calls := by
  induction nodes generalizing acc with
  | nil =>
    obtain ⟨rfl, rfl⟩ := Success.state_pure.mp h
    exact ⟨rfl, rfl⟩
  | cons node nodes ih =>
    rcases redirectNodes_cons_eq_ok h with ⟨-, hnext⟩ | ⟨_, _, _, hmatch, -, -⟩
    · have hrest := ih hnext fun i hi => hnone i (List.mem_cons_of_mem node hi)
      exact hrest
    · cases node with
      | label label => cases hmatch
      | instruction i =>
        have htarget := (matchCall?_eq_ok hmatch (.refl _)).1
        rw [hnone i List.mem_cons_self] at htarget
        cases htarget

end Redirect

namespace ClassFile

variable {targets : List MethodKey} {dispatcher : Dispatcher} {c c' : ClassFile} {n : Nat}

/-- A method without calls of targets is left as it is, and so is the pool. -/
theorem redirectMethod_of_no_target {index : Nat}
    (h : redirectMethod targets dispatcher index c = .ok n c')
    (hnone : ∀ l ∈ c.instructionsAt index, isTarget c.pool targets l.instruction = false) :
    c' = c := by
  obtain ⟨-, -, rfl⟩ | ⟨code, body, r, pool, hcode, hbody, hnodes, -, hrest⟩ :=
    redirectMethod_cases h
  · rfl
  obtain ⟨read, found, -, hdecoded, -, -⟩ := MethodBody.decode_eq_ok hbody
  rw [instructionsAt_of_code hcode hdecoded.disassemble_eq] at hnone
  -- the nodes of the body call what the instructions of the code do
  have hcount : targetCount c.pool targets body.nodes = 0 := by
    rw [targetCount_nodes hdecoded, List.countP_eq_zero]
    intro l hl
    simp [hnone l hl]
  obtain ⟨rfl, hcalls⟩ := redirectNodes_of_no_target hnodes fun i hi => by
    have hmem : i ∈ body.nodes.filterMap Node.instruction? :=
      List.mem_filterMap.mpr ⟨_, hi, rfl⟩
    simpa using List.countP_eq_zero.mp hcount i hmem
  obtain ⟨-, rfl⟩ | ⟨hsome, -⟩ := hrest
  · rfl
  · exact absurd hcalls hsome

theorem injectRedirects_of_no_target (h : injectRedirects targets dispatcher c = .ok n c')
    (hnone : ∀ index, ∀ l ∈ c.instructionsAt index,
      isTarget c.pool targets l.instruction = false) :
    c' = c := by
  obtain ⟨_, _, hget, h⟩ := Success.state_bind.mp h
  cases hget
  obtain ⟨calls, c₁, hrun, h⟩ := Success.state_bind.mp h
  obtain ⟨-, rfl⟩ := Success.state_pure.mp h
  clear h
  generalize List.range c.methods.length = indices at hrun
  induction indices generalizing calls with
  | nil =>
    obtain ⟨-, rfl⟩ := Success.state_pure.mp hrun
    rfl
  | cons index indices ih =>
    obtain ⟨n, c₁, ns, hfirst, hrest, -⟩ := Success.state_mapM_cons.mp hrun
    obtain rfl := redirectMethod_of_no_target hfirst (hnone index)
    exact ih ns hrest

end ClassFile

/-! ## Transformers -/

namespace Transformer

/-- There is something in the class for the transformer to do: a method that one of the patches
is for, or a call of a target. -/
def Concerns : Transformer → ClassFile → Prop
  | constantReturn _ _ patches, c => ∃ patch ∈ patches, c.name = .ok patch.className ∧
      ∃ m ∈ c.methods, c.isNamed patch.method patch.descriptor m = true
  | extract _ _, _ => False
  | redirect _ _ _ targets, c => ∃ index, ∃ l ∈ c.instructionsAt index, ∃ key ∈ targets,
      calledKey? c.pool l.instruction = some key

/-- Where there is nothing to do, nothing is done. -/
theorem edit_eq_self {t : Transformer} {edit : ClassEdit Unit} {c c' : ClassFile}
    (hsome : t.edit? = some edit) (h : edit c = .ok () c') (hnone : ¬t.Concerns c) : c' = c := by
  cases t with
  | constantReturn transformer selection patches =>
    cases hsome
    obtain ⟨name, _, hlookup, -⟩ := Success.state_bind.mp h
    obtain ⟨hname, rfl⟩ := ClassEdit.check_eq_ok.mp hlookup
    have hsame : MethodPatch.applyAll patches c = .ok () c := by
      apply MethodPatch.applyAll_of_not_named hname
      intro patch hpatch hclass m hm
      by_contra hnamed
      exact hnone ⟨patch, hpatch, hclass ▸ hname, m, hm, by simpa using hnamed⟩
    rw [hsame] at h
    cases h
    rfl
  | extract resource artifacts => cases hsome
  | redirect transformer selection dispatcher targets =>
    obtain ⟨-, rfl⟩ := edit?_redirect.mp hsome
    obtain ⟨name, _, hlookup, h⟩ := Success.state_bind.mp h
    obtain ⟨-, rfl⟩ := ClassEdit.check_eq_ok.mp hlookup
    by_cases howner : name ≠ dispatcher.owner
    · rw [if_pos howner] at h
      obtain ⟨n, c₁, hinject, h⟩ := Success.state_bind.mp h
      cases h
      apply ClassFile.injectRedirects_of_no_target hinject
      intro index l hl
      by_contra htarget
      rw [Bool.not_eq_false, isTarget, Option.any_eq_true] at htarget
      obtain ⟨key, hkey, hmem⟩ := htarget
      exact hnone ⟨index, l, hl, key, by simpa using hmem, hkey⟩
    · rw [if_neg howner] at h
      cases h
      rfl

/-- A rewritten entry has other bytes than before, both are classes, and the two classes are the
same outside of the bodies of their methods. There was something to do in the class. -/
theorem sameOutside_of_rewritten {σ : Type} {sink : Sink σ} {entry : Entry} {t : Transformer}
    {data : List UInt8} {s s' : σ} (h : t.apply sink entry s = (.rewritten data, s')) :
    data ≠ entry.data ∧ ∃ c c', ClassFile.parse entry.data = .ok c ∧
      ClassFile.parse data = .ok c' ∧ c.SameOutside c' ∧ t.Concerns c := by
  obtain ⟨-, -, -, -, hne⟩ := apply_eq_rewritten.mp h
  obtain ⟨edit, c, c', hsome, hparse, hparse', hedit⟩ := exists_edit_of_rewritten h
  obtain ⟨-, -, hname, hdata⟩ := ClassFile.parse_eq_ok.mp hparse
  have hconfined := (keeps_edit? hsome).of_ok hedit
  refine ⟨hne, c, c', hparse, hparse', hconfined.sameOutside hname, ?_⟩
  by_contra hnone
  -- a class that is left as it is has the bytes that it was read from
  obtain rfl := edit_eq_self hsome hedit hnone
  obtain ⟨-, -, -, hdata'⟩ := ClassFile.parse_eq_ok.mp hparse'
  exact hne (Except.ok.inj (hdata'.symm.trans hdata))

/-- The stored form of a class with two methods `f`. -/
def twoMethodsEntry : Entry := ⟨"A.class", ClassFile.twoCalls.toBytes.toOption.getD []⟩

/-- Making all methods of that name return at once. -/
def silence : Transformer := constantReturn "silence" ⟨.any, .any⟩ [⟨"A", "f", none, .void⟩]

/-- The stored form of the class with both bodies replaced. -/
def silenced : List UInt8 :=
  (editStored twoMethodsEntry.data
    (MethodPatch.applyAll [⟨"A", "f", none, .void⟩])).toOption.getD []

theorem sameOutside_of_rewritten_twoCalls :
    silence.apply .collecting twoMethodsEntry [] = (.rewritten silenced, []) ∧
      silenced ≠ twoMethodsEntry.data ∧ ∃ c c',
        ClassFile.parse twoMethodsEntry.data = .ok c ∧ ClassFile.parse silenced = .ok c' ∧
        c.SameOutside c' ∧ silence.Concerns c := by
  have houtcome : (silence.apply .collecting twoMethodsEntry []).1 = .rewritten silenced := by
    decide +kernel
  have hrewritten : silence.apply .collecting twoMethodsEntry [] = (.rewritten silenced, []) :=
    Prod.ext houtcome rfl
  exact ⟨hrewritten, sameOutside_of_rewritten hrewritten⟩

end Transformer

end ClassPatch
