import ClassAudit.Json.Parser
import ClassAudit.Json.Readable
import ClassAudit.Project.FileTree
import ClassAudit.Theme.Block
import ClassAudit.Theme.Import
/-!
# Signs of the framework

What shows that a project uses the utility framework: a configuration file, a dependency in its
manifest, a plugin in the configuration of its style processor, or a style sheet.
-/

namespace ClassAudit

/-- A sign of the framework, with the file that shows it. -/
inductive FrameworkSign where
  | configFile (path : Path)
  | manifestDependency (path : Path)
  | postcssPlugin (path : Path)
  | stylesheet (path : Path)
  deriving DecidableEq

/-! ## The manifest -/

namespace Manifest

/-- How deep the value of a dependency may nest. -/
def maxDepth : Nat := 125

/-- The dependencies that a value holds, which has to be an object. -/
def entriesOf? : Json → Option (List (Option Text × Json))
  | .object entries => if Json.areReadableEntries maxDepth entries then some entries else none
  | _ => none

/-- The dependencies under a key of a manifest: none if the key is left out, and a fault if it is
given twice. -/
def entriesUnder? (key : Text) (fields : List (Text × Json)) :
    Option (List (Option Text × Json)) :=
  match fields.filter fun field => field.1 == key with
  | [] => some []
  | [(_, value)] => entriesOf? value
  | _ => none

/-- The dependencies of both kinds in a manifest. In an object each kind has its key; in an array
they are told by their places, and the kinds behind its end are empty. -/
def dependencies? : Json → Option (List (Option Text × Json))
  | .object entries => do
    let fields ← entries.mapM fun entry => do return (← entry.1, entry.2)
    let direct ← entriesUnder? "dependencies".toList fields
    let development ← entriesUnder? "devDependencies".toList fields
    return direct ++ development
  | .array kinds => if kinds.length ≤ 2 then (kinds.mapM entriesOf?).map List.flatten else none
  | _ => none

/-- Whether a manifest names a package among its dependencies of either kind. -/
def dependsOn? (text package : Text) : Option Bool := do
  let entries ← dependencies? (← Json.parse? text)
  return entries.any fun entry => entry.1 == some package

/-- Whether a manifest names the framework. A manifest that is not well formed names nothing. -/
def declaresFramework (text : Text) : Bool :=
  (dependsOn? text Theme.frameworkPackage).getD false

end Manifest

namespace FrameworkSign

/-- The configuration files of the framework, in the order in which they are looked for. -/
def configFiles : List Text := Text.table
  ["tailwind.config.js", "tailwind.config.cjs", "tailwind.config.mjs", "tailwind.config.ts"]

/-- The configuration files of the style processor, in the order in which they are looked for. -/
def processorFiles : List Text := Text.table
  ["postcss.config.js", "postcss.config.cjs", "postcss.config.mjs"]

/-- Whether a style sheet shows the framework. -/
def showsFramework (css : Text) : Bool :=
  Theme.importsFramework css || Theme.hasBlock css

/-- The signs of a project, in the order in which they count. -/
def all (tree : FileTree) (root : Path) (stylesheets : List Path) : List FrameworkSign :=
  let holds := fun (test : Text → Bool) (path : Path) => (tree.read? path).any test
  let inRoot := fun names : List Text => names.map root.child
  ((inRoot configFiles).filter tree.isFile).map configFile ++
  ((inRoot ["package.json".toList]).filter (holds Manifest.declaresFramework)).map
    manifestDependency ++
  ((inRoot processorFiles).filter (holds (Text.includes · Theme.frameworkPackage))).map
    postcssPlugin ++
  (stylesheets.filter (holds showsFramework)).map stylesheet

/-- The first sign of a project. -/
def find? (tree : FileTree) (root : Path) (stylesheets : List Path) : Option FrameworkSign :=
  (all tree root stylesheets).head?

end FrameworkSign

/-- Whether projects use the framework, by their root. -/
structure FrameworkMemo where
  answers : List (Path × Bool) := []

namespace FrameworkMemo

/-- Whether a project uses the framework: the answer remembered, or what its files show now. -/
def ask (memo : FrameworkMemo) (tree : FileTree) (root : Path) (stylesheets : List Path) :
    Bool × FrameworkMemo :=
  match memo.answers.lookup root with
  | some answer => (answer, memo)
  | none =>
    let answer := (FrameworkSign.find? tree root stylesheets).isSome
    (answer, ⟨(root, answer) :: memo.answers⟩)

/-- Forgets all answers. -/
def clear (_ : FrameworkMemo) : FrameworkMemo := {}

end FrameworkMemo

end ClassAudit
