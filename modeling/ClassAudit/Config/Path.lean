import ClassAudit.Text.Basic
/-!
# Paths

A path is a list of parts, absolute or not. Repeated slashes and inner dots say nothing, so paths
are compared part by part. `Path.normalize` evaluates the parts on a stack without looking at any
file.
-/

namespace ClassAudit

/-- A part of a path. -/
inductive PathPart where
  /-- A dot at the head of a relative path. -/
  | current
  /-- Two dots. -/
  | parent
  | name (text : Text)
  deriving DecidableEq

/-- A path. -/
structure Path where
  absolute : Bool
  parts : List PathPart
  deriving DecidableEq

namespace PathPart

/-- The part that a text between slashes writes. -/
def ofText (text : Text) : PathPart :=
  if text = ['.'] then current else if text = ['.', '.'] then parent else name text

/-- A part as it is written. -/
def render : PathPart → Text
  | current => ['.']
  | parent => ['.', '.']
  | name text => text

end PathPart

namespace Path

/-- The path that a text writes. -/
def ofText (text : Text) : Path :=
  let parts := ((text.splitOn '/').filter fun part => !part.isEmpty).map PathPart.ofText
  let inner := fun part : PathPart => part != .current
  if text.head? = some '/' then ⟨true, parts.filter inner⟩
  else ⟨false, parts.take 1 ++ (parts.drop 1).filter inner⟩

/-- A path as it is written. -/
def render (path : Path) : Text :=
  let body := (path.parts.map PathPart.render).intersperse ['/'] |>.flatten
  if path.absolute then '/' :: body else body

/-- The second path, seen from the first. -/
def join (base path : Path) : Path :=
  if path.absolute then path
  else if base = ⟨false, []⟩ then path
  else ⟨base.absolute, base.parts ++ path.parts.filter fun part => part != .current⟩

/-- The path with one more name. -/
def child (path : Path) (name : Text) : Path :=
  ⟨path.absolute, path.parts ++ [.name name]⟩

/-- The stack after one more part: a name is put on top, and two dots take the top away. Two dots do
nothing at the root, and stay where there is nothing to take. -/
def pushPart (absolute : Bool) (stack : List PathPart) : PathPart → List PathPart
  | .current => stack
  | .name text => .name text :: stack
  | .parent =>
    match stack with
    | [] => if absolute then [] else [.parent]
    | .parent :: _ => .parent :: stack
    | _ :: below => below

/-- The path without dots, and without two dots wherever they can be taken away. -/
def normalize (path : Path) : Path :=
  ⟨path.absolute, (path.parts.foldl (pushPart path.absolute) []).reverse⟩

/-- The parts of a path below a directory. -/
def below? (path directory : Path) : Option (List PathPart) :=
  if path.absolute = directory.absolute ∧ directory.parts <+: path.parts then
    some (path.parts.drop directory.parts.length)
  else none

/-- Whether a path is a directory or lies below it. -/
def isWithin (path directory : Path) : Bool :=
  (path.below? directory).isSome

/-- A root as an absolute path, seen from the working directory. -/
def resolveRoot (workingDir root : Path) : Path :=
  (workingDir.join root).normalize

end Path

end ClassAudit
