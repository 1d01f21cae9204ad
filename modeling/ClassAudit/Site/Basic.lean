import ClassAudit.Text.Basic
/-!
# Class sites

A site is a place in a template that gives an element its classes: an attribute, an assignment, a
call on a class list, or an expression. Its values are expressions of the script language, of which
only the forms that can hold class names are told apart.
-/

namespace ClassAudit

/-- An expression of the script language. -/
inductive Expr where
  /-- A literal, with its text if it is a string. -/
  | literal (text : Option Text)
  /-- A template literal: the texts between its expressions, and the expressions. -/
  | template (texts : List Text) (expressions : List Expr)
  | conditional (test consequent alternate : Expr)
  | call (callee : Expr) (arguments : List Expr)
  /-- An array literal, without its holes. -/
  | array (elements : List Expr)
  /-- An object literal and its properties. -/
  | object (properties : List Expr)
  /-- A property of an object literal; a computed key stands in brackets. -/
  | property (key : Expr) (value : Option Expr) (computed : Bool)
  | member (object property : Expr) (computed : Bool)
  | identifier (name : Text)
  /-- The braces around an expression in markup. -/
  | container (expression : Expr)
  /-- Any other expression. -/
  | unsupported

namespace Expr

/-- A string literal. -/
def string (text : Text) : Expr := literal (some text)

/-- The text of a string literal. -/
def text? : Expr → Option Text
  | literal text => text
  | _ => none

/-- The name of an identifier or the text of a string literal, as the key of a property. -/
def keyName? : Expr → Option Text
  | identifier name => some name
  | key => key.text?

end Expr

/-- The bounds of a site in its file. -/
structure Span where
  start : Nat := 0
  stop : Nat := 0
  deriving DecidableEq

/-- The kinds of class sites. -/
inductive SiteKind where
  | jsxAttribute
  | vueAttribute
  | svelteAttribute
  | classNameAssignment
  | classListCall
  | expression
  deriving DecidableEq

/-- Where a class token was found. -/
structure Site where
  kind : SiteKind
  span : Span
  deriving DecidableEq

/-- The value of a Vue attribute. -/
inductive VueValue where
  /-- A plain attribute. -/
  | plain (text : Text)
  /-- An attribute bound to an expression. -/
  | bound (expression : Expr)

/-- A part of the value of a Svelte attribute. -/
inductive SveltePart where
  | text (content : Text)
  /-- An expression in braces. -/
  | tag (expression : Expr)

/-- What a class site holds. -/
inductive SiteContent where
  | jsxAttribute (name : Text) (value : Option Expr)
  | vueAttribute (name : Text) (value : VueValue)
  /-- The parts of the value, and the source of the attribute. -/
  | svelteAttribute (name : Text) (parts : List SveltePart) (source : Option Text)
  | classNameAssignment (value : Expr)
  | classListCall (method : Text) (arguments : List Expr)
  | expression (value : Expr)

/-- A class site with its content. -/
structure SiteNode where
  content : SiteContent
  span : Span := {}

/-- The kind of a content. -/
def SiteContent.kind : SiteContent → SiteKind
  | jsxAttribute .. => .jsxAttribute
  | vueAttribute .. => .vueAttribute
  | svelteAttribute .. => .svelteAttribute
  | classNameAssignment .. => .classNameAssignment
  | classListCall .. => .classListCall
  | expression .. => .expression

/-- The place of a node. -/
def SiteNode.site (node : SiteNode) : Site :=
  ⟨node.content.kind, node.span⟩

/-- A class token: its text, whether it is part of a computed class name, and where it stands. -/
structure ClassToken where
  value : Text
  dynamic : Bool
  site : Site
  deriving DecidableEq

end ClassAudit
