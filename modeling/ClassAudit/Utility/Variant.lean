import ClassAudit.Utility.Modifier
import ClassAudit.Utility.Vocabulary
/-!
# Variants

A modifier is a variant when it names a state, a media condition, a breakpoint, a container size,
an attribute or a relation to a group or peer, or when it is an arbitrary condition in brackets.
-/

namespace ClassAudit.Variant

open Vocabulary
open Text (table)

/-- States of an element. -/
def states : List Text := table
  ["hover", "focus", "focus-within", "focus-visible", "active", "visited", "target", "first",
   "last", "only", "odd", "even", "first-of-type", "last-of-type", "only-of-type", "empty",
   "disabled", "enabled", "checked", "indeterminate", "default", "optional", "required", "valid",
   "invalid", "user-valid", "user-invalid", "in-range", "out-of-range", "placeholder-shown",
   "details-content", "autofill", "read-only", "open", "inert"]

/-- Parts of an element that are styled on their own. -/
def elementParts : List Text := table
  ["before", "after", "first-letter", "first-line", "marker", "selection", "file", "backdrop",
   "placeholder"]

/-- Conditions on the medium, the writing direction and the children. -/
def mediaConditions : List Text := table
  ["dark", "light", "motion-safe", "motion-reduce", "contrast-more", "contrast-less",
   "forced-colors", "not-forced-colors", "inverted-colors", "pointer-fine", "pointer-coarse",
   "pointer-none", "any-pointer-fine", "any-pointer-coarse", "any-pointer-none", "portrait",
   "landscape", "noscript", "print", "screen", "starting", "rtl", "ltr", "*", "**"]

/-- The accessibility states that need no brackets. -/
def ariaStates : List Text := table
  ["busy", "checked", "disabled", "expanded", "hidden", "pressed", "readonly", "required",
   "selected"]

/-- Whether a text is a non-empty text in brackets. -/
def isBracketed (text : Text) : Bool :=
  text.length > 2 && text.head? == some '[' && text.getLast? == some ']'

/-- Whether a text names a group, peer or container. -/
def isScopeName (name : Text) : Bool :=
  !name.isEmpty && name.all Text.isPlainNameChar

/-- Whether a variant counts children: a number or an arbitrary formula. -/
def isCounting (variant : Text) : Bool :=
  match variant.afterAny? (table ["nth-last-of-type-", "nth-of-type-", "nth-last-", "nth-"]) with
  | some position => isBracketed position || isDigits position
  | none => false

/-- Whether a variant speaks of the element alone. -/
def isSimple (variant : Text) : Bool :=
  states.contains variant || elementParts.contains variant || isCounting variant

/-- Whether a condition may stand after `has-` and `in-`. -/
def isRelative (condition : Text) : Bool :=
  isBracketed condition || isSimple condition

/-- Whether a variant is a breakpoint, an upper breakpoint or an arbitrary viewport bound. -/
def isResponsive (variant : Text) : Bool :=
  breakpoints.contains variant ||
    match variant.after? "max-".toList with
    | some bound => breakpoints.contains bound || isBracketed bound
    | none => (variant.after? "min-".toList).any isBracketed

/-- Whether a variant asks for the size of a container, which may be named. -/
def isContainer (variant : Text) : Bool :=
  match variant.after? ['@'] with
  | none => false
  | some search =>
    let size := ((scopeHead search).afterAny? (table ["max-", "min-"])).getD (scopeHead search)
    (scopeName? search).all isScopeName &&
      (size == "container".toList || containerSizes.contains size || isBracketed size)

/-- Whether a variant asks for a feature of the browser. -/
def isSupports (variant : Text) : Bool :=
  (variant.after? "supports-".toList).any fun feature => !feature.isEmpty

/-- Whether a variant asks for a data attribute or an accessibility state. -/
def isAttribute (variant : Text) : Bool :=
  match variant.after? "data-".toList with
  | some name => !name.isEmpty
  | none =>
    (variant.after? "aria-".toList).any fun state =>
      isBracketed state || ariaStates.contains state

/-- Whether a condition may stand after `group-` and `peer-`; it may name the group or peer. -/
def isRelated (condition : Text) : Bool :=
  let core := scopeHead condition
  (scopeName? condition).all isScopeName &&
    (isBracketed core || isSimple core || isAttribute core ||
      (core.after? "has-".toList).any isRelative)

/-- Whether a condition may stand after `not-`. -/
def isNegatable (condition : Text) : Bool :=
  isRelative condition || mediaConditions.contains condition || isSupports condition ||
    isAttribute condition

/-- Whether a modifier is a variant. -/
def isValid (variant : Text) : Bool :=
  isBracketed variant || isSimple variant || mediaConditions.contains variant ||
    isResponsive variant || isContainer variant ||
    (table ["group", "peer"]).contains variant ||
    match variant.afterAny? (table ["group-", "peer-"]) with
    | some condition => isRelated condition
    | none =>
      match variant.afterAny? (table ["group/", "peer/"]) with
      | some name => isScopeName name
      | none =>
        match variant.after? "not-".toList with
        | some condition => isNegatable condition
        | none =>
          match variant.afterAny? (table ["in-", "has-"]) with
          | some condition => isRelative condition
          | none => isSupports variant || isAttribute variant

end ClassAudit.Variant
