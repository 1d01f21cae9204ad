import ClassAudit.Site.Basic
/-!
# Diagnostics

What an audit reports about a site: the classes that nothing defines, in order of appearance.
-/

namespace ClassAudit

/-- What is known about a class token. -/
inductive Verdict where
  /-- It is part of a computed class name. -/
  | dynamic
  | ignoredPattern
  /-- Its name belongs to a style module. -/
  | moduleScoped
  | utility
  | themeToken
  | defined
  /-- The component itself defines it. -/
  | locallyDefined
  | undefined
  deriving DecidableEq

/-- The classes that a diagnostic reports. -/
inductive ReportedNames where
  | single (name : Text)
  | multiple (names : List Text)
  deriving DecidableEq

/-- A report about a site. -/
structure Diagnostic where
  site : Site
  classes : ReportedNames
  deriving DecidableEq

namespace Diagnostic

/-- The report of names; none if there are none. -/
def ofNames? (site : Site) : List Text → Option Diagnostic
  | [] => none
  | [name] => some ⟨site, .single name⟩
  | names => some ⟨site, .multiple names⟩

/-- The names that are reported. -/
def names (diagnostic : Diagnostic) : List Text :=
  match diagnostic.classes with
  | .single name => [name]
  | .multiple names => names

/-- The wording of a report. -/
def message (diagnostic : Diagnostic) : String :=
  match diagnostic.classes with
  | .single name => "CSS class '" ++ String.ofList name ++ "' is not defined in any CSS file"
  | .multiple names =>
    "CSS classes " ++ ", ".intercalate (names.map String.ofList) ++
      " are not defined in any CSS file"

end Diagnostic

end ClassAudit
