import ClassAudit.Project.FileTree
import ClassAudit.Project.Glob
/-!
# Discovering style sheets

The files below a base directory that match an include glob and no exclude glob. A directory is not
entered if a file of the name `_` in it would be excluded.
-/

namespace ClassAudit

/-- What style sheets are asked for. -/
structure StyleSearch where
  baseDir : Path
  includes : List Text
  excludes : List Text
  deriving DecidableEq

/-- The order of paths, given by their names: the first names that differ decide. -/
def namesBefore : List Text → List Text → Bool
  | _, [] => false
  | [], _ :: _ => true
  | a :: s, b :: t => if a = b then namesBefore s t else Text.before a b

theorem namesBefore_irrefl (names : List Text) : namesBefore names names = false := by
  induction names with
  | nil => rfl
  | cons a names ih => simp [namesBefore, ih]

theorem namesBefore_trans {s t u : List Text} (hst : namesBefore s t = true)
    (htu : namesBefore t u = true) : namesBefore s u = true := by
  induction s generalizing t u with
  | nil => cases t <;> cases u <;> simp_all [namesBefore]
  | cons a s ih =>
    cases t with
    | nil => simp [namesBefore] at hst
    | cons b t =>
      cases u with
      | nil => simp [namesBefore] at htu
      | cons c u =>
        simp only [namesBefore] at hst htu ⊢
        split at hst <;> split at htu
        · simp_all
          exact ih hst htu
        · simp_all
        · simp_all
        · have hac := Text.before_trans hst htu
          have hne : a ≠ c := by
            rintro rfl
            rw [Text.before_irrefl] at hac
            cases hac
          rw [if_neg hne]
          exact hac

theorem namesBefore_trichotomy (s t : List Text) :
    namesBefore s t = true ∨ s = t ∨ namesBefore t s = true := by
  induction s generalizing t with
  | nil => cases t <;> simp [namesBefore]
  | cons a s ih =>
    cases t with
    | nil => simp [namesBefore]
    | cons b t =>
      by_cases h : a = b
      · subst h
        simpa [namesBefore] using ih t
      · simpa [namesBefore, h, Ne.symm h] using Text.before_trichotomy a b

namespace StyleSearch

/-- The names of the directories on the way to a file, without the base directory. -/
def directoriesOf (names : List Text) : List (List Text) :=
  ((List.range names.length).drop 1).map fun count => names.take count

/-- Whether a directory is not entered. -/
def prunes (excludes : Globs) (directory : List Text) : Bool :=
  excludes.isMatch (directory ++ [['_']])

/-- Whether a file below the base directory is asked for. -/
def selects (includes excludes : Globs) (names : List Text) : Bool :=
  includes.isMatch names && !excludes.isMatch names &&
    !(directoriesOf names).any (prunes excludes)

/-- The names of a file below a directory. -/
def namesBelow? (directory file : List Text) : Option (List Text) :=
  if directory.isPrefixOf file then some (file.drop directory.length) else none

/-- The style sheets that are asked for, in path order and each once. -/
def discover (search : StyleSearch) (tree : FileTree) : List Path :=
  let includes := Globs.ofTexts search.includes
  let excludes := Globs.ofTexts search.excludes
  let below := tree.files.filterMap fun file => namesBelow? search.baseDir.names file.1
  let found := below.filter (selects includes excludes)
  let ordered := (found.mergeSort fun a b => !namesBefore b a).eraseDups
  ordered.map fun names => ⟨search.baseDir.absolute, search.baseDir.parts ++ names.map .name⟩

end StyleSearch

end ClassAudit
