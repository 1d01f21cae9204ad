import ClassAudit.Markup.Mustache
import ClassAudit.Text.Blank
/-!
# Class attributes in markup

Finds the quoted values of `class` attributes in a piece of markup. The search goes on inside the
values it has found.
-/

namespace ClassAudit.ClassAttribute

/-- The rest of a quoted value up to its closing quote. A backslash protects the next character,
and a quote inside an expression in braces does not count. -/
def quotedValue? (quote : Char) : Option Mustache.Inside → Text → Option Text
  | _, [] => none
  | none, '\\' :: c :: rest => (quotedValue? quote none rest).map fun value => '\\' :: c :: value
  | none, c :: rest =>
    if c = '\\' then none
    else if c = '{' then (quotedValue? quote (some {}) rest).map (c :: ·)
    else if c = quote then some []
    else (quotedValue? quote none rest).map (c :: ·)
  | some place, c :: rest => (quotedValue? quote (place.step c) rest).map (c :: ·)

/-- Whether an attribute name may start after a character. -/
def separatesName (c : Char) : Bool :=
  !(Text.isPlainNameChar c || c == ':' || c == '.')

/-- The value of a class attribute that starts at the head of the text. -/
def valueAt? (previous : Option Char) (text : Text) : Option Text :=
  if previous.all separatesName then do
    let afterName ← text.after? "class".toList
    let afterEquals ← (Text.trimStart afterName).after? ['=']
    match Text.trimStart afterEquals with
    | c :: value => if c = '"' ∨ c = '\'' then quotedValue? c none value else none
    | [] => none
  else none

/-- The class attribute values that start in the text, after the given character. -/
def valuesFrom (previous : Option Char) : Text → List Text
  | [] => []
  | c :: rest => (valueAt? previous (c :: rest)).toList ++ valuesFrom (some c) rest

/-- The values of the class attributes in a piece of markup, in order. -/
def values (markup : Text) : List Text :=
  valuesFrom none markup

end ClassAudit.ClassAttribute
