import ClassAudit.Css.Stylesheet
import ClassAudit.Markup.StyleBlock
import ClassAudit.Text.WordChar
/-!
# Classes of a component

The names that the style blocks of a component define. A block that is no style sheet is scanned
for dots and names instead.
-/

namespace ClassAudit.Css

/-- The name at the head of a text in the loose scan. -/
def looseName? : Text → Option Text
  | [] => none
  | c :: rest =>
    if c.isAlpha || c == '_' || c == '-' then
      some (c :: rest.takeWhile fun d => Text.isWordChar d || d == '-')
    else none

/-- The names after the dots of a text. -/
def looseNames : Text → List Text
  | [] => []
  | c :: rest => (if c = '.' then (looseName? rest).toList else []) ++ looseNames rest

/-- The names that one style block defines. -/
def blockNames (css : Text) : List Text :=
  match Stylesheet.parse css with
  | .ok sheet => sheet.sortedNames
  | .error _ => looseNames css

/-- The names that the style blocks of a component define. -/
def componentNames (source : Text) : NameSet :=
  .ofList ((StyleBlock.bodies source).flatMap blockNames)

end ClassAudit.Css
