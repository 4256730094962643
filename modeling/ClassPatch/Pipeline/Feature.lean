/-!
# Features

The switches by which a pipeline is put together. A set of features is a word with a bit for each of
them; bits without a feature are kept.
-/

namespace ClassPatch

/-- A set of features. -/
structure Features where
  bits : UInt32
deriving Repr, DecidableEq

namespace Features

/-- No feature. -/
def none : Features := ⟨0⟩

/-- Replacing the native windows and fonts. -/
def headlessCalls : Features := ⟨1⟩

/-- Extracting the runtime library. -/
def runtimeLibrary : Features := ⟨2⟩

/-- Doing without the session servers. -/
def offline : Features := ⟨4⟩

/-- The features of both sets. -/
def union (a b : Features) : Features := ⟨a.bits ||| b.bits⟩

/-- What a program without a display needs. -/
def headless : Features := headlessCalls.union runtimeLibrary

/-- All features. -/
def all : Features := headless.union offline

/-- Whether a set has all features of another one. -/
def contains (a b : Features) : Bool := a.bits &&& b.bits = b.bits

end Features

end ClassPatch
