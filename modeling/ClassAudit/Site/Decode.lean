import ClassAudit.Json.Basic
import ClassAudit.Site.Basic
/-!
# Reading class sites from JSON

A node is an object whose `kind` names the site; an expression is an object whose `type` names its
form, and any type not listed here is an unsupported expression. Fields that are not asked for are
ignored, but every field that is asked for has to be well formed, at any depth.
-/

namespace ClassAudit

/-- A field of an expression with its readings. -/
structure ExprField where
  value : Json
  /-- The field as an expression. -/
  expr : Option Expr
  /-- The items of the field as expressions, with none for an item that is null. -/
  items : Option (List (Option Expr))

namespace ExprField

/-- The fields of an expression by key. -/
abbrev Fields := List (Option Text × ExprField)

/-- The last field with a key. -/
def find? (fields : Fields) (key : String) : Option ExprField :=
  fields.reverse.lookup (some key.toList)

/-- A field that has to be an expression. -/
def expr? (fields : Fields) (key : String) : Option Expr := do
  (← find? fields key).expr

/-- A field that has to be a list of expressions. -/
def exprs? (fields : Fields) (key : String) : Option (List Expr) := do
  (← (← find? fields key).items).mapM id

/-- A field that may be left out or null, and has to be an expression otherwise. -/
def optionalExpr? (fields : Fields) (key : String) : Option (Option Expr) :=
  match find? fields key with
  | none => some none
  | some field =>
    match field.value with
    | .null => some none
    | _ => field.expr.map some

/-- A truth value that may be left out. -/
def flag? (fields : Fields) (key : String) : Option Bool :=
  match find? fields key with
  | none => some false
  | some field => field.value.bool?

/-- A field that has to be a text. -/
def text? (fields : Fields) (key : String) : Option Text := do
  (← find? fields key).value.text?

end ExprField

/-- The text of a piece of a template: the cooked text, or the raw one if there is none. -/
def decodeQuasi? (quasi : Json) : Option Text := do
  let value ← quasi.field? "value".toList
  let raw ← (← value.field? "raw".toList).text?
  match value.field? "cooked".toList with
  | none => return raw
  | some .null => return raw
  | some cooked => cooked.text?

namespace Expr

open ExprField in
/-- The expression with a type and fields. -/
def ofFields? (type : Text) (fields : Fields) : Option Expr :=
  match String.ofList type with
  | "Literal" => do
    return .literal (← find? fields "value").value.text?
  | "TemplateLiteral" => do
    let quasis ← (← find? fields "quasis").value.items?
    return .template (← quasis.mapM decodeQuasi?) (← exprs? fields "expressions")
  | "ConditionalExpression" => do
    return .conditional (← expr? fields "test") (← expr? fields "consequent")
      (← expr? fields "alternate")
  | "CallExpression" => do
    let callee ← expr? fields "callee"
    match find? fields "arguments" with
    | none => return .call callee []
    | some _ => return .call callee (← exprs? fields "arguments")
  | "ArrayExpression" => do
    return .array ((← (← find? fields "elements").items).filterMap id)
  | "ObjectExpression" => do
    return .object (← exprs? fields "properties")
  | "Property" => do
    return .property (← expr? fields "key") (← optionalExpr? fields "value")
      (← flag? fields "computed")
  | "MemberExpression" => do
    return .member (← expr? fields "object") (← expr? fields "property") (← flag? fields "computed")
  | "Identifier" => do
    return .identifier (← ExprField.text? fields "name")
  | "JSXExpressionContainer" => do
    return .container (← expr? fields "expression")
  | _ => some .unsupported

end Expr

mutual

/-- Reads an expression. -/
def decodeExpr? : Json → Option Expr
  | .object entries => do
    let fields := decodeFields entries
    Expr.ofFields? (← ExprField.text? fields "type") fields
  | _ => none

/-- Reads the fields of an expression in every way they can be asked for. -/
def decodeFields : List (Option Text × Json) → ExprField.Fields
  | [] => []
  | (key, value) :: rest =>
    (key, ⟨value, decodeExpr? value, decodeItems? value⟩) :: decodeFields rest

/-- Reads an array of expressions and nulls. -/
def decodeItems? : Json → Option (List (Option Expr))
  | .array items => decodeEach? items
  | _ => none

/-- Reads expressions and nulls. -/
def decodeEach? : List Json → Option (List (Option Expr))
  | [] => some []
  | .null :: rest => (decodeEach? rest).map (none :: ·)
  | item :: rest => do
    let expression ← decodeExpr? item
    return some expression :: (← decodeEach? rest)

end

/-! ## Nodes -/

/-- A field that has to be there. -/
def requireField? (value : Json) (key : String) : Option Json :=
  value.field? key.toList

/-- A list of expressions without nulls. -/
def decodeExprs? (value : Json) : Option (List Expr) := do
  (← decodeItems? value).mapM id

/-- A number that fits in sixty-four bits. -/
def decodeOffset? (value : Json) : Option Nat :=
  value.nat?.filter fun offset => offset < Nat.pow 2 64

/-- The bounds of a site, which may be left out. -/
def decodeSpan? (node : Json) : Option Span :=
  match requireField? node "span" with
  | none => some {}
  | some span => do
    return ⟨← decodeOffset? (← requireField? span "start"),
      ← decodeOffset? (← requireField? span "end")⟩

/-- A field that may be left out or null. -/
def optionalField? {α : Type} (read : Json → Option α) (node : Json) (key : String) :
    Option (Option α) :=
  match requireField? node key with
  | none => some none
  | some .null => some none
  | some value => (read value).map some

/-- The value of a Vue attribute. -/
def decodeVueValue? (value : Json) : Option VueValue := do
  match String.ofList (← (← requireField? value "type").text?) with
  | "Static" => return .plain (← (← requireField? value "value").text?)
  | "Bound" => return .bound (← decodeExpr? (← requireField? value "expression"))
  | _ => none

/-- A part of the value of a Svelte attribute. -/
def decodeSveltePart? (part : Json) : Option SveltePart := do
  match String.ofList (← (← requireField? part "type").text?) with
  | "Text" => return .text (← (← requireField? part "data").text?)
  | "MustacheTag" => return .tag (← decodeExpr? (← requireField? part "expression"))
  | _ => none

/-- The parts of the value of a Svelte attribute, which may be left out. -/
def decodeSvelteParts? (node : Json) : Option (List SveltePart) :=
  match requireField? node "parts" with
  | none => some []
  | some parts => do (← parts.items?).mapM decodeSveltePart?

/-- The content of a node. -/
def decodeContent? (node : Json) : Option SiteContent := do
  match String.ofList (← (← requireField? node "kind").text?) with
  | "jsx_attribute" =>
    return .jsxAttribute (← (← requireField? node "name").text?)
      (← optionalField? decodeExpr? node "value")
  | "vue_attribute" =>
    return .vueAttribute (← (← requireField? node "name").text?)
      (← decodeVueValue? (← requireField? node "value"))
  | "svelte_attribute" =>
    return .svelteAttribute (← (← requireField? node "name").text?) (← decodeSvelteParts? node)
      (← optionalField? Json.text? node "raw")
  | "class_name_assignment" =>
    return .classNameAssignment (← decodeExpr? (← requireField? node "value"))
  | "class_list_call" =>
    return .classListCall (← (← requireField? node "method").text?)
      (← decodeExprs? (← requireField? node "arguments"))
  | "expression" =>
    return .expression (← decodeExpr? (← requireField? node "expression"))
  | _ => none

/-- Reads a class site. -/
def SiteNode.decode? (node : Json) : Option SiteNode := do
  return ⟨← decodeContent? node, ← decodeSpan? node⟩

end ClassAudit
