import ClassAudit.Markup.Attribute
import ClassAudit.Markup.ClassList
import ClassAudit.Site.Basic
/-!
# Extracting class tokens

The class tokens that a site holds literally. Text that touches an interpolation is part of a
computed class name; an interpolation that touches no text is read as a class value of its own.
Calls of the usual class helpers are read through their arguments.
-/

namespace ClassAudit.Extract

/-- The text of a token and whether it is part of a computed class name. -/
abbrev Found := Text × Bool

/-- The functions that join class names. -/
def helpers : List Text := Text.table
  ["clsx", "classnames", "classNames", "cn", "cx", "twMerge", "twJoin", "cva"]

/-- The helper that builds classes from variants. -/
def variantHelper : Text := "cva".toList

/-- The class helper that a callee names, directly or as a property. -/
def helperOf? (callee : Expr) : Option Text :=
  match callee with
  | .identifier name => if helpers.contains name then some name else none
  | .member _ (.identifier name) false => if helpers.contains name then some name else none
  | _ => none

/-- The tokens of a class list. -/
def literalTokens (text : Text) : List Found :=
  (ClassList.tokens text).map (·, false)

/-! ## Interpolated text -/

/-- A part of an interpolated text. -/
inductive Piece where
  | text (content : Text)
  /-- An interpolation and the tokens of its expression, read as a class value. -/
  | interpolation (tokens : List Found)

namespace Piece

/-- Whether a piece has something to show. -/
def isVisible : Piece → Bool
  | text content => !content.isEmpty
  | interpolation _ => true

/-- Whether a piece touches the one after it. -/
def touchesNext : Piece → Bool
  | text content => !Text.endsBlank content
  | interpolation _ => true

/-- Whether a piece touches the one before it. -/
def touchesPrevious : Piece → Bool
  | text content => !Text.startsBlank content
  | interpolation _ => true

end Piece

/-- The tokens of a text, given whether its neighbours touch it. A last token that touches the next
piece is kept only if it is plain or touches the previous piece too. -/
def textTokens (content : Text) (touchedBefore touchedAfter : Bool) : List Found :=
  let tokens := ClassList.tokens content
  let follows := touchedBefore && !Text.startsBlank content
  let precedes := touchedAfter && !Text.endsBlank content
  let whole := if precedes then tokens.dropLast else tokens
  let marked := whole.mapIdx fun index token => (token, follows && index == 0)
  match tokens.getLast? with
  | some last =>
    if precedes && ((follows && tokens.length == 1) || last.all Text.isPlainNameChar) then
      marked ++ [(last, true)]
    else marked
  | none => []

/-- The tokens of a piece, given whether its neighbours touch it. -/
def pieceTokens (touchedBefore touchedAfter : Bool) : Piece → List Found
  | .text content => textTokens content touchedBefore touchedAfter
  | .interpolation tokens => if touchedBefore || touchedAfter then [] else tokens

/-- The tokens of visible pieces after a piece that touches them or not. -/
def visibleTokens (touchedBefore : Bool) : List Piece → List Found
  | [] => []
  | piece :: rest =>
    pieceTokens touchedBefore (rest.head?.any Piece.touchesPrevious) piece ++
      visibleTokens piece.touchesNext rest

/-- The tokens of an interpolated text. -/
def interpolatedTokens (pieces : List Piece) : List Found :=
  visibleTokens false (pieces.filter Piece.isVisible)

/-- The pieces of a template literal: its texts, each followed by the interpolation after it. -/
def templatePieces : List Text → List (List Found) → List Piece
  | [], _ => []
  | text :: texts, [] => .text text :: templatePieces texts []
  | text :: texts, tokens :: rest =>
    .text text :: .interpolation tokens :: templatePieces texts rest

/-! ## Expressions -/

/-- The tokens of the keys of an object literal. -/
def keyTokens (properties : List Expr) : List Found :=
  properties.flatMap fun
    | .property (.identifier name) _ false => [(name, false)]
    | .property (.literal (some text)) _ false => literalTokens text
    | _ => []

mutual

/-- The tokens of an expression as a class value. Where collections are allowed, the elements of an
array are class values and the keys of an object are classes. -/
def valueTokens (collections : Bool) : Expr → List Found
  | .literal (some text) => literalTokens text
  | .template texts expressions =>
    interpolatedTokens (templatePieces texts (eachTokens expressions))
  | .conditional _ consequent alternate =>
    valueTokens collections consequent ++ valueTokens collections alternate
  | .call callee arguments =>
    match helperOf? callee with
    | some helper => helperTokens helper arguments
    | none => []
  | .container expression => valueTokens collections expression
  | .array elements => if collections then listTokens elements else []
  | .object properties => if collections then keyTokens properties else []
  | _ => []

/-- The tokens of each expression as a class value without collections. -/
def eachTokens : List Expr → List (List Found)
  | [] => []
  | expression :: rest => valueTokens false expression :: eachTokens rest

/-- The tokens of expressions as class values with collections. -/
def listTokens : List Expr → List Found
  | [] => []
  | expression :: rest => valueTokens true expression ++ listTokens rest

/-- The tokens of the arguments of a class helper. -/
def helperTokens (helper : Text) : List Expr → List Found
  | [] => []
  | first :: rest =>
    valueTokens true first ++
      if helper = variantHelper then configsTokens rest else listTokens rest

/-- The tokens of variant configurations. -/
def configsTokens : List Expr → List Found
  | [] => []
  | config :: rest => configTokens config ++ configsTokens rest

/-- The tokens of a variant configuration. -/
def configTokens : Expr → List Found
  | .object properties => configEntries properties
  | _ => []

/-- The tokens of the entries of a variant configuration. -/
def configEntries : List Expr → List Found
  | .property key (some value) false :: rest =>
    (if key.keyName? = some "variants".toList then variantsTokens value
      else if key.keyName? = some "compoundVariants".toList then compoundsTokens value
      else []) ++ configEntries rest
  | _ :: rest => configEntries rest
  | [] => []

/-- The tokens of the variants of a configuration. -/
def variantsTokens : Expr → List Found
  | .object properties => variantEntries properties
  | _ => []

/-- The tokens of the variants by name. -/
def variantEntries : List Expr → List Found
  | .property key (some value) false :: rest =>
    (if key.keyName?.isSome then optionsTokens value else []) ++ variantEntries rest
  | _ :: rest => variantEntries rest
  | [] => []

/-- The tokens of the options of a variant. -/
def optionsTokens : Expr → List Found
  | .object properties => optionEntries properties
  | _ => []

/-- The tokens of the options by name. -/
def optionEntries : List Expr → List Found
  | .property key (some value) false :: rest =>
    (if key.keyName?.isSome then valueTokens true value else []) ++ optionEntries rest
  | _ :: rest => optionEntries rest
  | [] => []

/-- The tokens of a list of compound variants. -/
def compoundsTokens : Expr → List Found
  | .array elements => compoundElements elements
  | _ => []

/-- The tokens of compound variants. -/
def compoundElements : List Expr → List Found
  | [] => []
  | element :: rest => compoundTokens element ++ compoundElements rest

/-- The tokens of a compound variant. -/
def compoundTokens : Expr → List Found
  | .object properties => compoundEntries properties
  | _ => []

/-- The tokens of the class entries of a compound variant. -/
def compoundEntries : List Expr → List Found
  | .property key (some value) false :: rest =>
    (if key.keyName? = some "class".toList ∨ key.keyName? = some "className".toList then
      valueTokens true value else []) ++ compoundEntries rest
  | _ :: rest => compoundEntries rest
  | [] => []

end

/-! ## Sites -/

/-- The attributes that hold classes in JSX. -/
def jsxAttributes : List Text := Text.table ["className", "class"]

/-- The attributes that hold classes in Vue. -/
def vueAttributes : List Text := Text.table ["class", ":class", "v-bind:class"]

/-- The tokens of the class attributes in the source of a Svelte attribute. -/
def sourceTokens (source : Text) : List Found :=
  (ClassAttribute.values source).flatMap fun value =>
    interpolatedTokens ((Mustache.segments value).map fun
      | .text content => .text content
      | .expression _ => .interpolation [])

/-- The pieces of the value of a Svelte attribute. -/
def sveltePieces (parts : List SveltePart) : List Piece :=
  parts.map fun
    | .text content => .text content
    | .tag expression => .interpolation (valueTokens false expression)

/-- The arguments of a class list method that are class lists. -/
def listArguments (method : Text) (arguments : List Expr) : List Expr :=
  if method = "add".toList then arguments
  else if method = "toggle".toList then arguments.take 1
  else []

/-- The tokens of a site. -/
def contentTokens : SiteContent → List Found
  | .jsxAttribute name value =>
    if jsxAttributes.contains name then (value.map (valueTokens false)).getD [] else []
  | .vueAttribute name value =>
    if vueAttributes.contains name then
      match value with
      | .plain text => literalTokens text
      | .bound expression => valueTokens true expression
    else []
  | .svelteAttribute name parts source =>
    if name = "class".toList then
      if parts.isEmpty then (source.map sourceTokens).getD []
      else interpolatedTokens (sveltePieces parts)
    else []
  | .classNameAssignment value => valueTokens false value
  | .classListCall method arguments =>
    (listArguments method arguments).flatMap fun argument =>
      (argument.text?.map literalTokens).getD []
  | .expression (.call callee arguments) =>
    match helperOf? callee with
    | some helper => helperTokens helper arguments
    | none => []
  | .expression _ => []

end ClassAudit.Extract

namespace ClassAudit

/-- The class tokens of a node, in order of appearance. -/
def SiteNode.tokens (node : SiteNode) : List ClassToken :=
  (Extract.contentTokens node.content).map fun found => ⟨found.1, found.2, node.site⟩

end ClassAudit
