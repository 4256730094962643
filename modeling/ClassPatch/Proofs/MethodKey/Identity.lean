import Mathlib
import ClassPatch.Proofs.Host.Registry
import ClassPatch.Proofs.MethodKey
import ClassPatch.Proofs.Redirect.Nodes

/-!
# Methods are known by their keys

A key is written without any escapes, and still two methods never share one. So the key that a
redirected call hands to the dispatcher is that of the method it called, and handlers of other
methods are out of its reach.
-/

namespace ClassPatch.MethodKey

open Code Host Redirect

/-! ## Keys and methods -/

/-- The texts of keys are those that are written from the parts of a method. -/
theorem parse_eq_ok {text : String} {key : MethodKey} :
    parse text = .ok key ↔ key.text = text ∧ ∃ p, key.parts = .ok p := by
  unfold parse
  cases hparts : parts ⟨text⟩ with
  | error e =>
    constructor
    · intro h
      cases h
    · intro h
      obtain ⟨rfl, p, hp⟩ := h
      rw [hparts] at hp
      cases hp
  | ok p =>
    constructor
    · intro h
      cases h
      exact ⟨rfl, p, hparts⟩
    · intro h
      obtain ⟨rfl, -⟩ := h
      rfl

theorem Parts.WellFormed.parts_key {p : Parts} (hp : p.WellFormed) : p.key.parts = .ok p :=
  parts_eq_ok.mpr ⟨hp, rfl⟩

theorem Parts.WellFormed.key_injective {p q : Parts} (hp : p.WellFormed) (hq : q.WellFormed)
    (hkey : p.key = q.key) : p = q := by
  have hparts := hp.parts_key
  rw [hkey, hq.parts_key] at hparts
  exact (Except.ok.inj hparts).symm

/-- The descriptor in a key is the one that the method's descriptor writes. -/
theorem Parts.WellFormed.exists_descriptor {p : Parts} (hp : p.WellFormed) :
    ∃ d : MethodDescriptor, d.text = p.descriptor ∧ d.Readable ∧ p.key.descriptor = .ok d := by
  obtain ⟨d, hd⟩ := hp.descriptor
  obtain ⟨htext, hreadable⟩ := MethodDescriptor.parse?_eq_some.mp hd
  refine ⟨d, htext, hreadable, ?_⟩
  rw [MethodKey.descriptor, hp.parts_key, ← MethodDescriptor.parse_text hreadable, htext]
  rfl

/-! ## Calls -/

/-- A redirected call has the key of the method that it called. -/
theorem key_of_matchCall? {pool : ConstantPool} {targets : List MethodKey} {i : Instruction Label}
    {index : UInt16} {m : MemberRef} {call : Redirect.Call} (hindex : i.invoked? = some index)
    (hm : pool.getMember index = .ok m)
    (hcall : matchCall? pool targets (.instruction i) = .ok (some call)) :
    call.key = Parts.key ⟨m.owner, m.name, m.descriptor⟩ := by
  obtain ⟨hkey, -⟩ := (matchCall?_eq_ok hcall (.refl pool)).2 call rfl
  have hspecial : i.opcode ≠ Opcode.invokespecial := by
    intro hspecial
    rw [calledKey?_eq_none (.inl hspecial)] at hkey
    cases hkey
  rw [calledKey?_eq_some hspecial hindex hm] at hkey
  exact (Option.some.inj hkey).symm

/-- A call depends on the handler of its key only. -/
theorem dispatch_congr {r r' : Registry} {key : MethodKey} (h : r.lookup? key = r'.lookup? key)
    (receiver : Value) (ret : ReturnType) (arguments : List Value) :
    r.dispatch key receiver ret arguments = r'.dispatch key receiver ret arguments := by
  have hinvoke : r.invoke key receiver ret arguments = r'.invoke key receiver ret arguments := by
    rw [Registry.invoke, h, Registry.invoke]
  rw [Registry.dispatch, hinvoke, Registry.dispatch]

/-- A method is known by its key. The parts of the key are those of the method, a text is accepted as
a key exactly if it is written from the parts of a method, and it is written from its own parts
again. Two methods have different keys: where a call of the one is redirected, whatever handler is
given to the other is out of reach of that call. -/
theorem key_identifies_method :
    (∀ p : Parts, p.WellFormed → p.key.parts = .ok p ∧
      ∃ d : MethodDescriptor, d.text = p.descriptor ∧ d.Readable ∧ p.key.descriptor = .ok d) ∧
    (∀ text : String, (∃ key, parse text = .ok key) ↔
      ∃ p : Parts, p.WellFormed ∧ p.key.text = text) ∧
    (∀ (text : String) (key : MethodKey), parse text = .ok key →
      key.text = text ∧ ∃ p : Parts, key.parts = .ok p ∧ p.key = key) ∧
    ∀ p q : Parts, p.WellFormed → q.WellFormed → p ≠ q → p.key ≠ q.key ∧
      ∀ (pool : ConstantPool) (targets : List MethodKey) (i : Instruction Label) (index : UInt16)
          (isInterface : Bool) (call : Redirect.Call), i.invoked? = some index →
        pool.getMember index = .ok ⟨p.owner, p.name, p.descriptor, isInterface⟩ →
        matchCall? pool targets (.instruction i) = .ok (some call) → call.key = p.key ∧
          ∀ (r : Registry) (handler : Handler) (start : Heap) (receiver : Value) (ret : ReturnType)
              (arguments : List Value),
            (r.redirect q.key handler start).1.dispatch call.key receiver ret arguments =
              r.dispatch call.key receiver ret arguments := by
  refine ⟨fun p hp => ⟨hp.parts_key, hp.exists_descriptor⟩, fun text => ?_, fun text key h => ?_,
    fun p q hp hq hne => ?_⟩
  · constructor
    · intro h
      obtain ⟨key, hkey⟩ := h
      obtain ⟨rfl, p, hparts⟩ := parse_eq_ok.mp hkey
      obtain ⟨hp, rfl⟩ := parts_eq_ok.mp hparts
      exact ⟨p, hp, rfl⟩
    · intro h
      obtain ⟨p, hp, rfl⟩ := h
      exact ⟨p.key, parse_eq_ok.mpr ⟨rfl, p, hp.parts_key⟩⟩
  · obtain ⟨htext, p, hparts⟩ := parse_eq_ok.mp h
    exact ⟨htext, p, hparts, (parts_eq_ok.mp hparts).2⟩
  · have hkey : p.key ≠ q.key := fun hkey => hne (hp.key_injective hq hkey)
    refine ⟨hkey, fun pool targets i index isInterface call hindex hm hcall => ?_⟩
    have hcallKey := key_of_matchCall? hindex hm hcall
    refine ⟨hcallKey, fun r handler start receiver ret arguments => ?_⟩
    rw [hcallKey]
    apply dispatch_congr
    rw [Registry.lookup?_redirect, if_neg hkey.symm]

/-- A method whose owner and name hold the characters that keys are cut at. -/
def awkward : Parts := ⟨"a(B", "x;y", "(L(;)V"⟩

/-- The same method but for its result. -/
def awkwardInt : Parts := ⟨"a(B", "x;y", "(L(;)I"⟩

/-- A pool with a reference to the method. -/
def awkwardPool : ConstantPool :=
  ⟨#[.unusable, .utf8 "a(B", .classRef 1, .utf8 "x;y", .utf8 "(L(;)V", .nameAndType 3 4,
    .member .method 2 5]⟩

theorem key_identifies_method_awkward :
    awkward.WellFormed ∧ awkwardInt.WellFormed ∧ awkward ≠ awkwardInt ∧
      awkward.key.parts = .ok awkward ∧ awkward.key ≠ awkwardInt.key ∧
      ∃ call, matchCall? awkwardPool [awkward.key]
          (.instruction (.ofConstant Opcode.invokestatic 6)) = .ok (some call) ∧
        ∀ (r : Registry) (handler : Handler),
          (r.redirect awkwardInt.key handler .empty).1.dispatch call.key .null .void [.null] =
            r.dispatch call.key .null .void [.null] := by
  have hp : awkward.WellFormed :=
    ⟨by decide, by decide, by decide, by decide, ⟨[.object "("], .void⟩, by decide +kernel⟩
  have hq : awkwardInt.WellFormed :=
    ⟨by decide, by decide, by decide, by decide, ⟨[.object "("], .value .int⟩, by decide +kernel⟩
  have hne : awkward ≠ awkwardInt := by decide
  obtain ⟨hparts, -, -, hkeys⟩ := key_identifies_method
  obtain ⟨hkey, hcalls⟩ := hkeys awkward awkwardInt hp hq hne
  have hcall : matchCall? awkwardPool [awkward.key]
      (.instruction (.ofConstant Opcode.invokestatic 6)) =
        .ok (some ⟨awkward.key, ⟨[.object "("], .void⟩, true⟩) := by
    rfl
  obtain ⟨-, hdispatch⟩ := hcalls awkwardPool _ _ 6 false _ rfl (by decide +kernel) hcall
  exact ⟨hp, hq, hne, (hparts awkward hp).1, hkey, _, hcall,
    fun r handler => hdispatch r handler .empty .null .void [.null]⟩

end ClassPatch.MethodKey
