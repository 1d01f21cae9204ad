import ClassAudit.Css.Stylesheet
import ClassAudit.Project.Discovery
import ClassAudit.Theme.Tokens
/-!
# What the style sheets of a project define

The names that style sheets define, remembered for each search, and the theme tokens they declare. A
file that cannot be read or is no style sheet defines nothing.
-/

namespace ClassAudit

/-- The names that the file at a path defines. -/
def definedIn (tree : FileTree) (path : Path) : NameSet :=
  match (tree.read? path).map Css.Stylesheet.parse with
  | some (.ok sheet) => sheet.defined
  | _ => ∅

/-- The names that files define. -/
def readDefined (tree : FileTree) (paths : List Path) : NameSet :=
  paths.foldl (fun names path => names ∪ definedIn tree path) ∅

/-- The theme tokens that the file at a path declares, if it imports the framework. -/
def themeTokensIn (tree : FileTree) (path : Path) : ThemeTokens :=
  match tree.read? path with
  | some css => if Theme.definesTheme css then .parse css else {}
  | none => {}

/-- The theme tokens that files declare. -/
def readThemeTokens (tree : FileTree) (paths : List Path) : ThemeTokens :=
  paths.foldl (fun tokens path => tokens.merge (themeTokensIn tree path)) {}

/-- A result and the number of the build that made it; two results of one build are the same one. -/
structure Built (α : Type) where
  build : Nat
  value : α

/-- The names that style sheets define, by search. -/
structure ClassCatalog where
  entries : List (StyleSearch × Built NameSet) := []
  /-- The number of builds so far. -/
  builds : Nat := 0

namespace ClassCatalog

/-- The names for a search: those remembered, or those that the files define now. -/
def look (catalog : ClassCatalog) (tree : FileTree) (search : StyleSearch) :
    Built NameSet × ClassCatalog :=
  match catalog.entries.lookup search with
  | some built => (built, catalog)
  | none =>
    let built := ⟨catalog.builds, readDefined tree (search.discover tree)⟩
    (built, ⟨(search, built) :: catalog.entries, catalog.builds + 1⟩)

/-- Forgets all searches. -/
def clear (catalog : ClassCatalog) : ClassCatalog :=
  { catalog with entries := [] }

/-- The number of searches remembered. -/
def size (catalog : ClassCatalog) : Nat := catalog.entries.length

end ClassCatalog

end ClassAudit
