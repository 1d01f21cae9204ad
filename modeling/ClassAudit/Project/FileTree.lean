import ClassAudit.Config.Path
/-!
# File trees

The files of a project by their absolute paths. A file holds a text, or bytes that are no text;
directories are where their files are.
-/

namespace ClassAudit

/-- The content of a file: a text, or none for bytes that are no text. -/
abbrev FileContent := Option Text

/-- The names of a path from the root of the file system, with dots taken away. -/
def Path.names (path : Path) : List Text :=
  path.normalize.parts.map PathPart.render

/-- The files of a file system, each given by the names of its path. -/
structure FileTree where
  files : List (List Text × FileContent) := []

namespace FileTree

/-- The file at a path. -/
def file? (tree : FileTree) (path : Path) : Option FileContent :=
  tree.files.lookup path.names

/-- Whether there is a file at a path. -/
def isFile (tree : FileTree) (path : Path) : Bool :=
  (tree.file? path).isSome

/-- The text of the file at a path. -/
def read? (tree : FileTree) (path : Path) : Option Text :=
  (tree.file? path).bind id

/-- The tree without the file or directory at a path. -/
def remove (tree : FileTree) (path : Path) : FileTree :=
  ⟨tree.files.filter fun file => !path.names.isPrefixOf file.1⟩

/-- The tree with a file written at a path. -/
def write (tree : FileTree) (path : Path) (content : FileContent) : FileTree :=
  ⟨(path.names, content) :: (tree.remove path).files⟩

end FileTree

end ClassAudit
