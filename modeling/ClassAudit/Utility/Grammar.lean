import ClassAudit.Utility.Table
import ClassAudit.Utility.Variant
/-!
# The grammar of utility classes

A token is a utility class when its modifiers are variants and its base, without the mark of
importance, is a special form, a whole entry of the utility table, or a stem, a hyphen and a suffix
that the stem takes; such a base may end in a slash and an opacity. A token with an arbitrary value
in brackets has a second, looser test, `isDynamic`.
-/

namespace ClassAudit.Utility

open Vocabulary UtilityTable
open Text (table)

/-- The token without marks of importance: any number in front, one at the end. -/
def dropImportance (token : Text) : Text :=
  let rest := token.dropWhile (· == '!')
  (Text.before? rest ['!']).getD rest

/-- The base of a token whose modifiers are all variants. -/
def base? (token : Text) : Option Text :=
  let parts := ModifiedToken.split (dropImportance token)
  let base := dropImportance parts.base
  if parts.modifiers.all Variant.isValid && !base.isEmpty then some base else none

/-- What stands between a pair of square brackets around the whole text. -/
def bracketContent? (text : Text) : Option Text :=
  (text.after? ['[']).bind fun rest => rest.before? [']']

/-- Whether a base is a property, a colon and a value in brackets. -/
def isArbitraryProperty (base : Text) : Bool :=
  match (bracketContent? base).bind fun content => content.cut? ':' with
  | some (property, value) =>
    !property.isEmpty && !value.isEmpty && property.all fun c => c.isAlphanum || c == '-'
  | none => false

/-- Whether a base is accepted without the utility table. -/
def isSpecial (base : Text) : Bool :=
  Variant.elementParts.contains base || isArbitraryProperty base ||
    (scopeHead base == "@container".toList && (scopeName? base).all Variant.isScopeName)

/-- Whether a suffix is an arbitrary value in brackets or a variable in parentheses. -/
def isArbitraryValue (suffix : Text) : Bool :=
  Variant.isBracketed suffix ||
    (suffix.length > 4 && suffix.startsWith "(--".toList && suffix.getLast? == some ')')

/-- Whether a stem takes a suffix. -/
def allowsSuffix (stem suffix : Text) : Bool :=
  if isArbitraryValue suffix then takesArbitrary stem
  else
    (suffixes? stem).any fun scale =>
      scale.lists suffix ||
      (scale.colors && (isShadedColor suffix || isColorName suffix)) ||
      (!scale.narrow && isSpacing suffix) ||
      (suffix.all Char.isDigit && scale.acceptsInteger (Text.decimal suffix)) ||
      isFraction suffix

/-- The parts around each hyphen, from left to right. -/
def dashSplits : Text → List (Text × Text)
  | [] => []
  | c :: rest =>
    let later := (dashSplits rest).map fun parts => (c :: parts.1, parts.2)
    if c = '-' then ([], rest) :: later else later

/-- The base without its sign, and whether there was one. -/
def unsigned (base : Text) : Text × Bool :=
  match base with
  | '-' :: rest => (rest, true)
  | _ => (base, false)

/-- The first stem and suffix of a base that the table accepts. -/
def findPair? (base : Text) : Option (Text × Text) :=
  let (positive, negative) := unsigned base
  (dashSplits positive).find? fun (stem, suffix) =>
    !stem.isEmpty && !suffix.isEmpty && (!negative || takesNegative stem) &&
      allowsSuffix stem suffix

/-- Whether a base is a whole entry of the table. -/
def isWholeEntry (base : Text) : Bool :=
  !base.isEmpty && !(unsigned base).2 && isComplete base

/-- The non-empty head and the opacity of a base with a top-level slash. -/
def cutOpacity? (base : Text) : Option (Text × Text) :=
  (cutScope? base).filter fun parts => !parts.1.isEmpty

/-- Whether a text is an opacity: a number up to one hundred or an arbitrary value. -/
def isOpacity (text : Text) : Bool :=
  if isDigits text then Text.decimal text ≤ 100 else isArbitraryValue text

/-- Whether a utility class of this stem and suffix takes an opacity. -/
def allowsOpacity (stem suffix : Text) : Bool :=
  isArbitraryValue suffix || (suffixes? stem).any Suffixes.colors

/-- Whether a base is a pair that takes the opacity after it. -/
def isTinted (base : Text) : Bool :=
  match cutOpacity? base with
  | some (head, opacity) =>
    isOpacity opacity && !isWholeEntry head &&
      (findPair? head).any fun (stem, suffix) => allowsOpacity stem suffix
  | none => false

/-- Whether a base without modifiers is a utility class. -/
def isUtilityBase (base : Text) : Bool :=
  isSpecial base || isWholeEntry base || (findPair? base).isSome || isTinted base

/-- Whether a token is a utility class. -/
def isUtility (token : Text) : Bool :=
  (base? token).any isUtilityBase

/-! ## Tokens with computed values -/

/-- Whether a token holds a placeholder of a template. -/
def hasPlaceholder (token : Text) : Bool :=
  token.includes ['$', '\x7b'] || token.includes ['\x7b', '\x7b']

/-- The stems that take a raw value beside those that take arbitrary ones. -/
def rawValueStems : List Text := table
  ["text", "bg", "border", "ring", "from", "via", "to", "fill", "stroke", "outline", "decoration",
   "divide", "placeholder", "caret", "accent", "shadow", "drop-shadow", "content", "animate",
   "will-change", "basis", "grow", "shrink", "order"]

/-- The openings of functions that make a raw value. -/
def valueFunctions : List Text := table
  ["rgb(", "rgba(", "hsl(", "hsla(", "hwb(", "oklch(", "oklab(", "lab(", "lch(", "color(", "var(",
   "calc(", "min(", "max(", "clamp(", "url(", "linear-gradient(", "radial-gradient(",
   "conic-gradient("]

/-- The type hints that may open a raw value. -/
def typeHints : List Text := table
  ["color:", "length:", "image:", "position:", "size:", "url:", "number:", "percentage:"]

/-- The units of a length; a plain number has none. -/
def lengthUnits : List Text := table
  ["", "px", "em", "rem", "vh", "vw", "svh", "dvh", "lvh", "ch", "ex", "%", "cm", "mm", "in", "pc",
   "pt", "fr", "deg", "ms", "s"]

/-- Whether a text is a run of digits, points and signs before a unit. -/
def isLength (text : Text) : Bool :=
  let isNumeric := fun c : Char => c.isDigit || c == '.' || c == '-'
  text.head?.any isNumeric && lengthUnits.contains (text.dropWhile isNumeric)

/-- Whether a text is a colour code, a function, a hinted value or a length. -/
def isRawValue (text : Text) : Bool :=
  match text with
  | '#' :: digits => 3 ≤ digits.length && digits.length ≤ 8 && digits.all Text.isHexDigit
  | _ => (text.afterAny? (valueFunctions ++ typeHints)).isSome || isLength text

/-- Whether a base is a stem and a raw value in brackets; a sign and an opacity are set aside. -/
def isRawBase (base : Text) : Bool :=
  let positive := (unsigned base).1
  let core := ((cutOpacity? positive).map Prod.fst).getD positive
  match core.breakOn? ['-', '['] with
  | some (stem, rest) =>
    (rawValueStems.contains stem || takesArbitrary stem) &&
      ((Text.before? rest [']']).any fun value => !value.isEmpty && isRawValue value)
  | none => false

/-- Whether a token has a value that only the browser or the template computes. -/
def isDynamic (token : Text) : Bool :=
  hasPlaceholder token || (base? token).any fun base => isArbitraryProperty base || isRawBase base

end ClassAudit.Utility
