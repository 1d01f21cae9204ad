import ClassAudit.Audit.Diagnostic
import ClassAudit.Config.Basic
import ClassAudit.Project.ClassCatalog
import ClassAudit.Project.FrameworkSign
import ClassAudit.Site.Extract
import ClassAudit.Utility.Recognizer
/-!
# The auditor

Decides for each class token whether something defines it. What it has read from files it remembers
until it is told to forget, and it reads a file only when a decision needs it.
-/

namespace ClassAudit

/-- An audit of one project, with what it remembers. -/
structure Auditor where
  config : Config
  catalog : ClassCatalog := {}
  memo : FrameworkMemo := {}
  recognizer : Recognizer := .empty RecencyCache.defaultCapacity
  stylesheets : Option (List Path) := none
  theme : Option (Built NameSet) := none
  /-- The number of themes built so far. -/
  themeBuilds : Nat := 0

namespace Auditor

/-- How the names of style modules start. -/
def moduleLeads : List Text := Text.table ["module-", "styles-"]

/-- The search for the style sheets of the project. -/
def search (auditor : Auditor) : StyleSearch :=
  ⟨auditor.config.baseDir, auditor.config.cssFiles, auditor.config.excludePatterns⟩

/-- The names that the style sheets of the project define. -/
def knownClasses (auditor : Auditor) (tree : FileTree) : Built NameSet × Auditor :=
  let (built, catalog) := auditor.catalog.look tree auditor.search
  (built, { auditor with catalog := catalog })

/-- The style sheets of the project. -/
def sheetPaths (auditor : Auditor) (tree : FileTree) : List Path × Auditor :=
  match auditor.stylesheets with
  | some paths => (paths, auditor)
  | none =>
    let paths := auditor.search.discover tree
    (paths, { auditor with stylesheets := some paths })

/-- The utility classes that the theme of the project makes. -/
def themeClasses (auditor : Auditor) (tree : FileTree) : Built NameSet × Auditor :=
  match auditor.theme with
  | some built => (built, auditor)
  | none =>
    let (paths, auditor) := auditor.sheetPaths tree
    let built := ⟨auditor.themeBuilds, (readThemeTokens tree paths).utilityClasses⟩
    (built, { auditor with theme := some built, themeBuilds := auditor.themeBuilds + 1 })

/-- Whether the classes of the framework are known in the project. -/
def exemptsFramework (auditor : Auditor) (tree : FileTree) : Bool × Auditor :=
  if !auditor.config.ignoreTailwind then (false, auditor)
  else if !auditor.config.requireTailwindConfig then (true, auditor)
  else
    let (paths, auditor) := auditor.sheetPaths tree
    let (answer, memo) := auditor.memo.ask tree auditor.config.projectRoot paths
    (answer, { auditor with memo := memo })

/-- Whether the framework defines a name: its grammar, or else the theme of the project. -/
def frameworkVerdict (auditor : Auditor) (tree : FileTree) (name : Text) :
    Option Verdict × Auditor :=
  let (isFramework, recognizer) := auditor.recognizer.ask name
  let auditor := { auditor with recognizer := recognizer }
  if isFramework then (some .utility, auditor)
  else
    let (theme, auditor) := auditor.themeClasses tree
    (if Theme.accepts theme.value name then some .themeToken else none, auditor)

/-- Whether a style sheet of the project or the component itself defines a name. -/
def definitionVerdict (auditor : Auditor) (tree : FileTree) (name : Text)
    (localNames : Option NameSet) : Verdict × Auditor :=
  let (known, auditor) := auditor.knownClasses tree
  if known.value.contains name then (.defined, auditor)
  else if localNames.any fun names => names.contains name then (.locallyDefined, auditor)
  else (.undefined, auditor)

/-- The verdict that a name alone decides, without looking at any file. -/
def nameVerdict? (config : Config) (name : Text) (dynamic : Bool) : Option Verdict :=
  if config.allowDynamicClasses && (dynamic || Utility.hasPlaceholder name) then some .dynamic
  else if config.isIgnored name then some .ignoredPattern
  else if (name.afterAny? moduleLeads).isSome then some .moduleScoped
  else none

/-- The verdict on a class name, which may be part of a computed one. -/
def verdict (auditor : Auditor) (tree : FileTree) (name : Text) (dynamic : Bool)
    (localNames : Option NameSet) : Verdict × Auditor :=
  match nameVerdict? auditor.config name dynamic with
  | some verdict => (verdict, auditor)
  | none =>
    match auditor.exemptsFramework tree with
    | (false, auditor) => auditor.definitionVerdict tree name localNames
    | (true, auditor) =>
      match auditor.frameworkVerdict tree name with
      | (some verdict, auditor) => (verdict, auditor)
      | (none, auditor) => auditor.definitionVerdict tree name localNames

/-- The names of the tokens that nothing defines, in order. -/
def undefinedNames (auditor : Auditor) (tree : FileTree) (localNames : Option NameSet) :
    List ClassToken → List Text × Auditor
  | [] => ([], auditor)
  | token :: rest =>
    let (verdict, auditor) := auditor.verdict tree token.value token.dynamic localNames
    let (names, auditor) := auditor.undefinedNames tree localNames rest
    (if verdict = .undefined then token.value :: names else names, auditor)

/-- The report about the tokens of a site. The names that the component itself defines may be
given. -/
def auditSite (auditor : Auditor) (tree : FileTree) (site : Site) (tokens : List ClassToken)
    (localNames : Option NameSet) : Option Diagnostic × Auditor :=
  let (names, auditor) := auditor.undefinedNames tree localNames tokens
  (Diagnostic.ofNames? site names, auditor)

/-- The report about a node. -/
def auditNode (auditor : Auditor) (tree : FileTree) (node : SiteNode)
    (localNames : Option NameSet) : Option Diagnostic × Auditor :=
  auditor.auditSite tree node.site node.tokens localNames

/-- Forgets all that was read from files and all answers. -/
def forget (auditor : Auditor) : Auditor :=
  { auditor with
    catalog := auditor.catalog.clear
    memo := auditor.memo.clear
    recognizer := auditor.recognizer.clear
    stylesheets := none
    theme := none }

end Auditor

end ClassAudit
