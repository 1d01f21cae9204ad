import ClassAudit.NameSet
import ClassAudit.Theme.Block
import ClassAudit.Theme.Import
import ClassAudit.Utility.Grammar
/-!
# Theme tokens

The names that theme rules declare, by namespace, and the utility classes that these names make.
-/

namespace ClassAudit

/-- A namespace of theme tokens. -/
inductive TokenKind where
  | color
  | font
  | spacing
  | radius
  | shadow
  deriving DecidableEq

namespace TokenKind

/-- The namespaces, in the order in which a name is tried. -/
def all : List TokenKind := [color, font, spacing, radius, shadow]

/-- How the properties of a namespace start. -/
def namespaceOf : TokenKind → Text
  | color => "color-".toList
  | font => "font-".toList
  | spacing => "spacing-".toList
  | radius => "radius-".toList
  | shadow => "shadow-".toList

/-- The stems that take a token of a namespace. A margin is also taken with a minus sign. -/
def stems : TokenKind → List Text
  | color => Text.table
      ["bg", "text", "border", "border-x", "border-y", "border-t", "border-r", "border-b",
       "border-l", "ring", "ring-offset", "outline", "divide", "placeholder", "caret", "accent",
       "fill", "stroke", "decoration", "shadow", "from", "via", "to"]
  | font => Text.table ["font"]
  | spacing => Text.table
      ["p", "px", "py", "pt", "pr", "pb", "pl", "ps", "pe", "gap", "gap-x", "gap-y", "w", "h",
       "min-w", "max-w", "min-h", "max-h", "size", "inset", "inset-x", "inset-y", "top", "right",
       "bottom", "left", "start", "end",
       "m", "mx", "my", "mt", "mr", "mb", "ml", "ms", "me",
       "-m", "-mx", "-my", "-mt", "-mr", "-mb", "-ml", "-ms", "-me"]
  | radius => Text.table
      ["rounded", "rounded-t", "rounded-r", "rounded-b", "rounded-l", "rounded-tl", "rounded-tr",
       "rounded-br", "rounded-bl"]
  | shadow => Text.table ["shadow", "drop-shadow"]

end TokenKind

/-- The theme tokens of each namespace. -/
structure ThemeTokens where
  colors : NameSet := ∅
  fonts : NameSet := ∅
  spacing : NameSet := ∅
  radii : NameSet := ∅
  shadows : NameSet := ∅
  deriving DecidableEq

namespace ThemeTokens

/-- The colours that a theme may declare without a namespace. -/
def colorAliases : List Text := Text.table
  ["primary", "secondary", "accent", "muted", "surface", "background", "foreground", "canvas",
   "border", "input", "ring", "card", "popover", "destructive"]

/-- Whether a name may be a theme token. -/
def isTokenName (name : Text) : Bool :=
  !name.isEmpty && name.all fun c => Text.isPlainNameChar c || c == '.'

/-- The tokens of a namespace. -/
def get (tokens : ThemeTokens) : TokenKind → NameSet
  | .color => tokens.colors
  | .font => tokens.fonts
  | .spacing => tokens.spacing
  | .radius => tokens.radii
  | .shadow => tokens.shadows

/-- The tokens with one more name. -/
def insert (tokens : ThemeTokens) (kind : TokenKind) (name : Text) : ThemeTokens :=
  match kind with
  | .color => { tokens with colors := tokens.colors.insert name }
  | .font => { tokens with fonts := tokens.fonts.insert name }
  | .spacing => { tokens with spacing := tokens.spacing.insert name }
  | .radius => { tokens with radii := tokens.radii.insert name }
  | .shadow => { tokens with shadows := tokens.shadows.insert name }

/-- The token that a custom property makes. -/
def tokenOf? (property : Text) : Option (TokenKind × Text) := do
  let name ← property.after? ['-', '-']
  match TokenKind.all.findSome? fun kind => (name.after? kind.namespaceOf).map (kind, ·) with
  | some (kind, token) => if isTokenName token then some (kind, token) else none
  | none => if colorAliases.contains name then some (.color, name) else none

/-- The tokens that a style sheet declares in its theme rules. -/
def parse (css : Text) : ThemeTokens :=
  (((Theme.bodies css).flatMap Theme.declaredNames).filterMap tokenOf?).foldl
    (fun tokens token => tokens.insert token.1 token.2) {}

/-- The tokens of either theme. -/
def merge (first second : ThemeTokens) : ThemeTokens where
  colors := first.colors ∪ second.colors
  fonts := first.fonts ∪ second.fonts
  spacing := first.spacing ∪ second.spacing
  radii := first.radii ∪ second.radii
  shadows := first.shadows ∪ second.shadows

/-- Whether there are no tokens. -/
def isEmpty (tokens : ThemeTokens) : Bool :=
  TokenKind.all.all fun kind => (tokens.get kind).isEmpty

/-- The utility classes that the tokens make: each token after each stem of its namespace. -/
def utilityClasses (tokens : ThemeTokens) : NameSet :=
  .ofList (TokenKind.all.flatMap fun kind =>
    (tokens.get kind).toList.flatMap fun name => kind.stems.map fun stem => stem ++ '-' :: name)

end ThemeTokens

namespace Theme

/-- Whether a style sheet imports the framework and has a theme rule. -/
def definesTheme (css : Text) : Bool :=
  importsFramework css && hasBlock css

/-- Whether a token is one of the utility classes of a theme; its modifiers are variants, and it
may end in an opacity. -/
def accepts (classes : NameSet) (token : Text) : Bool :=
  (Utility.base? token).any fun base =>
    classes.contains base ||
      (Utility.cutOpacity? base).any fun parts =>
        Utility.isOpacity parts.2 && classes.contains parts.1

end Theme

end ClassAudit
