import ClassPatch.Headless.Keys
import ClassPatch.Pipeline.Run

/-!
# Presets

The transformers that let a program run without a display and without session servers, and the
pipeline of them.
-/

namespace ClassPatch.Preset

/-- The class that joins servers. -/
def sessionService : String := "com/mojang/authlib/yggdrasil/YggdrasilMinecraftSessionService"

/-- The class that fetches the key pairs of profiles. -/
def userApiService : String := "com/mojang/authlib/yggdrasil/YggdrasilUserApiService"

/-- The method that redirected calls go to. -/
def dispatcher : Dispatcher := ⟨"classweave/runtime/Redirections", "dispatch"⟩

/-- The library of the dispatcher. -/
def runtimeResource : String := "classweave-runtime.jar"

/-- The library that stands in for the native one. -/
def headlessResource : String := "classweave-lwjgl.jar"

/-- Joining a server does nothing, and there is no key pair. -/
def offlineSession : Transformer :=
  .constantReturn "offline session"
    ⟨.containing "authlib", .classes [sessionService, userApiService]⟩
    [⟨sessionService, "joinServer", none, .void⟩, ⟨userApiService, "getKeyPair", none, .null⟩]

/-- All calls with handlers of their own are redirected, in all classes. -/
def headlessRedirects : Transformer :=
  .redirect "headless redirects" ⟨.any, .ending ".class"⟩ dispatcher Headless.keys

/-- The library of the dispatcher is copied out. -/
def runtimeExtraction : Transformer := .extract runtimeResource .any

/-- The library that stands in for the native one is copied out. -/
def headlessExtraction : Transformer := .extract headlessResource .any

/-- The pipeline of a set of features. -/
def pipeline (features : Features) : Pipeline :=
  .ofCandidates features
    [⟨.headlessCalls, headlessRedirects⟩, ⟨.headlessCalls, headlessExtraction⟩,
     ⟨.runtimeLibrary, runtimeExtraction⟩, ⟨.offline, offlineSession⟩]

end ClassPatch.Preset
