import Mathlib
import ClassPatch.Host.Registry
import ClassPatch.Proofs.Host.Heap
import ClassPatch.Proofs.Success

/-!
# Handlers and their calls

Which handler a key has after registrations, and what a call of it comes to.
-/

namespace ClassPatch.Host.Registry

variable {r : Registry} {h h' : Heap} {key : MethodKey} {handler : Handler} {cache : CacheId}

/-! ## Registration -/

theorem lookup?_redirect (r : Registry) (key other : MethodKey) (handler : Handler) (h : Heap) :
    (r.redirect key handler h).1.lookup? other =
      if key = other then some handler else r.lookup? other := by
  show (r.handlers.insert key handler)[other]? = _
  rw [Std.HashMap.getElem?_insert]
  by_cases hkey : key = other
  · rw [if_pos (beq_iff_eq.mpr hkey), if_pos hkey]
  · rw [if_neg (by simpa using hkey), if_neg hkey]
    rfl

theorem redirectAll_cons (r : Registry) (entry : MethodKey × Handler)
    (entries : List (MethodKey × Handler)) (h : Heap) :
    r.redirectAll (entry :: entries) h =
      (r.redirect entry.1 entry.2 h).1.redirectAll entries (r.redirect entry.1 entry.2 h).2 := rfl

/-- Handlers of other keys change nothing for a key. -/
theorem lookup?_redirectAll_of_not_mem (r : Registry) {entries : List (MethodKey × Handler)}
    (hkey : key ∉ entries.map (·.1)) (h : Heap) :
    (r.redirectAll entries h).1.lookup? key = r.lookup? key := by
  induction entries generalizing r h with
  | nil => rfl
  | cons entry entries ih =>
    rw [List.map_cons, List.mem_cons, not_or] at hkey
    rw [redirectAll_cons, ih _ hkey.2, lookup?_redirect, if_neg (Ne.symm hkey.1)]

/-- Every key of a list without repeated keys gets its handler. -/
theorem lookup?_redirectAll (r : Registry) {entries : List (MethodKey × Handler)}
    (hkeys : (entries.map (·.1)).Nodup) (hentry : (key, handler) ∈ entries) (h : Heap) :
    (r.redirectAll entries h).1.lookup? key = some handler := by
  induction entries generalizing r h with
  | nil => cases hentry
  | cons entry entries ih =>
    rw [List.map_cons, List.nodup_cons] at hkeys
    rw [redirectAll_cons]
    rcases List.mem_cons.mp hentry with rfl | hrest
    · rw [lookup?_redirectAll_of_not_mem _ hkeys.1, lookup?_redirect, if_pos rfl]
    · exact ih _ hkeys.2 hrest _

/-- Handlers that are replaced drop their handles and nothing else. -/
theorem spares_redirectAll (hall : h.Allocated) (r : Registry)
    (entries : List (MethodKey × Handler)) : h.Spares cache (r.redirectAll entries h).2 := by
  induction entries generalizing r h with
  | nil => exact .refl hall
  | cons entry entries ih =>
    have hstep : h.Spares cache (r.redirect entry.1 entry.2 h).2 :=
      Heap.spares_foldl (fun h value hall => Heap.spares_releaseValue hall value) hall _
    exact hstep.trans (ih hstep.allocated _)

/-- Registration creates no objects. -/
theorem nextObject_redirectAll (r : Registry) (entries : List (MethodKey × Handler)) (h : Heap) :
    (r.redirectAll entries h).2.nextObject = h.nextObject := by
  have hdrop (values : List Value) (h : Heap) :
      (values.foldl Heap.releaseValue h).nextObject = h.nextObject := by
    induction values generalizing h with
    | nil => rfl
    | cons value values ih =>
      rw [List.foldl_cons, ih]
      cases value with
      | object id => exact Heap.nextObject_release h id
      | _ => rfl
  induction entries generalizing r h with
  | nil => rfl
  | cons entry entries ih =>
    rw [redirectAll_cons, ih]
    exact hdrop _ h

/-! ## Calls -/

/-- A call whose handler gives a value that its site takes. -/
theorem dispatch_eq_ok {receiver value adapted : Value} {ret : ReturnType} {arguments : List Value}
    {parts : MethodKey.Parts} (hlookup : r.lookup? key = some handler)
    (hparts : key.parts = .ok parts)
    (hrun : handler.run ⟨receiver, parts.descriptor, ret, arguments⟩ h = .ok value h')
    (hadapt : value.adapt ret = .ok adapted) (hret : ret ≠ .void) :
    r.dispatch key receiver ret arguments h = .ok adapted h' := by
  have hinvoke : r.invoke key receiver ret arguments h = .ok (some value) h' := by
    rw [invoke, hlookup]
    dsimp only
    rw [hparts]
    exact (Success.state_bind).mpr ⟨value, h', hrun, rfl⟩
  rw [dispatch, Success.state_bind_ok hinvoke]
  show adaptHeld value ret h' = _
  rw [adaptHeld, hadapt]
  dsimp only
  rw [if_neg hret]
  rfl

end ClassPatch.Host.Registry
