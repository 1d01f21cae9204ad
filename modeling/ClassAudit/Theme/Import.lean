import ClassAudit.Text.Blank
/-!
# Framework imports

A style sheet imports the framework when one of its lines is an import of the framework's package
or of a path inside it.
-/

namespace ClassAudit.Theme

/-- The package of the framework. -/
def frameworkPackage : Text := "tailwindcss".toList

/-- Whether a character ends an import target that is not quoted. -/
def endsTarget (c : Char) : Bool :=
  Text.isBlank c || c == ';' || c == ')'

/-- What an import names: a quoted text, or a text up to a blank, semicolon or parenthesis. It may
stand in `url(`. -/
def importTarget? (rest : Text) : Option Text :=
  let start := Text.trimStart rest
  let target := ((start.after? "url(".toList).map Text.trimStart).getD start
  match target with
  | [] => none
  | c :: quoted =>
    if c = '"' ∨ c = '\'' ∨ c = '\x60' then (Text.cut? c quoted).map Prod.fst
    else some (target.takeWhile fun d => !endsTarget d)

/-- Whether an import target belongs to the framework. -/
def isFrameworkTarget (target : Text) : Bool :=
  target == frameworkPackage || target.startsWith (frameworkPackage ++ ['/'])

/-- Whether a line imports the framework. -/
def lineImports (line : Text) : Bool :=
  (((Text.trimStart line).after? "@import".toList).bind importTarget?).any isFrameworkTarget

/-- Whether a style sheet imports the framework. -/
def importsFramework (css : Text) : Bool :=
  (css.splitOn '\n').any lineImports

end ClassAudit.Theme
