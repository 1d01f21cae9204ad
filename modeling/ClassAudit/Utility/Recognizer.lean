import ClassAudit.RecencyCache
import ClassAudit.Utility.Grammar
/-!
# The recognizer

Remembers for the tokens asked last whether the framework knows them.
-/

namespace ClassAudit

/-- Whether the framework itself defines a token: a utility class, or one with a computed value. -/
def Utility.isFramework (token : Text) : Bool :=
  isUtility token || isDynamic token

/-- A memory of answers of `Utility.isFramework`. -/
structure Recognizer where
  cache : RecencyCache Text Bool

namespace Recognizer

/-- A recognizer that remembers nothing yet. -/
def empty (capacity : Nat) : Recognizer :=
  ⟨.empty capacity⟩

/-- Whether the framework defines a token, and the recognizer that remembers it. -/
def ask (recognizer : Recognizer) (token : Text) : Bool × Recognizer :=
  match recognizer.cache.get token with
  | (some answer, cache) => (answer, ⟨cache⟩)
  | (none, cache) =>
    let answer := Utility.isFramework token
    (answer, ⟨cache.put token answer⟩)

/-- The number of remembered answers. -/
def size (recognizer : Recognizer) : Nat := recognizer.cache.size

/-- Forgets all answers. -/
def clear (recognizer : Recognizer) : Recognizer := ⟨recognizer.cache.clear⟩

end Recognizer

end ClassAudit
