import ClassPatch.Host.Heap
import ClassPatch.MethodKey

/-!
# Redirection registry

The handlers of redirected methods by their keys, and the dispatch of calls to them. A call without a
handler gives the default of its type, and a handler's result is checked against it. A failing handler
fails the call.
-/

namespace ClassPatch.Host

/-- What a handler learns about a call. -/
structure Call where
  receiver : Value
  descriptor : String
  ret : ReturnType
  arguments : List Value

/-- What runs in place of a redirected method. A handler gives its result with a handle to it. -/
structure Handler where
  run : Call → Action Value
  /-- The values that the handler holds handles to. -/
  held : List Value

/-- The handlers by key. -/
structure Registry where
  handlers : Std.HashMap MethodKey Handler

namespace Handler

/-- The handler that gives one value, to which it holds a handle. -/
def constant (value : Value) : Handler where
  run _ := do
    modify (·.retainValue value)
    return value
  held := [value]

/-- The handler that holds nothing. -/
def ofRun (run : Call → Action Value) : Handler := ⟨run, []⟩

end Handler

namespace Registry

/-- The registry without handlers. -/
def empty : Registry := ⟨∅⟩

/-- The number of handlers. -/
def size (r : Registry) : Nat := r.handlers.size

/-- The handler of a method. -/
def lookup? (r : Registry) (key : MethodKey) : Option Handler := r.handlers[key]?

/-- Whether a method has a handler. -/
def contains (r : Registry) (key : MethodKey) : Bool := r.handlers.contains key

/-- Give a method a handler. The handler it had before drops its handles. -/
def redirect (r : Registry) (key : MethodKey) (handler : Handler) (h : Heap) : Registry × Heap :=
  let dropped := ((r.lookup? key).map (·.held)).getD []
  (⟨r.handlers.insert key handler⟩, dropped.foldl Heap.releaseValue h)

/-- Give methods their handlers in order. -/
def redirectAll (r : Registry) (handlers : List (MethodKey × Handler)) (h : Heap) :
    Registry × Heap :=
  handlers.foldl (fun (r, h) (key, handler) => r.redirect key handler h) (r, h)

/-- The result of the handler of a method, none if it has no handler. A handler of a malformed key
does not run. -/
def invoke (r : Registry) (key : MethodKey) (receiver : Value) (ret : ReturnType)
    (arguments : List Value) : Action (Option Value) :=
  match r.lookup? key with
  | none => return none
  | some handler =>
    match key.parts with
    | .error e => throw e
    | .ok parts => return some (← handler.run ⟨receiver, parts.descriptor, ret, arguments⟩)

/-- The value that a call site takes, with a handle to it; the handle to a result that it does not
take, which is any result where the site takes none, is dropped. -/
def adaptHeld (value : Value) (ret : ReturnType) : Action Value := do
  match value.adapt ret with
  | .ok adapted =>
    if ret = .void then modify (·.releaseValue value)
    return adapted
  | .error e =>
    modify (·.releaseValue value)
    throw e

/-- The result of a redirected call. -/
def dispatch (r : Registry) (key : MethodKey) (receiver : Value) (ret : ReturnType)
    (arguments : List Value) : Action Value := do
  match ← r.invoke key receiver ret arguments with
  | some value => adaptHeld value ret
  | none => return .defaultFor ret

end Registry

end ClassPatch.Host
