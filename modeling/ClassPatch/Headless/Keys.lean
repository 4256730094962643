import ClassPatch.Headless.ElementCalls
import ClassPatch.Headless.FontCalls
import ClassPatch.Headless.ImageCalls

/-!
# Redirected calls of a headless program

All calls that have handlers of their own.
-/

namespace ClassPatch.Headless

open Host

/-- The keys of all redirected methods. -/
def keys : List MethodKey :=
  [FontCalls.initFont, FontCalls.getFontNameString, FontCalls.getNumberOfFonts,
   FontCalls.scaleForPixelHeight, FontCalls.getFontVMetrics, ImageCalls.loadFromMemory,
   ElementCalls.getIndex, ElementCalls.getNext]

/-- All handlers. -/
def handlers (cache : CacheId) (id : ResolverId) (factory : ObjectFactory) :
    List (MethodKey × Handler) :=
  FontCalls.handlers cache ++ ImageCalls.handlers ++ ElementCalls.handlers id factory

end ClassPatch.Headless
