import ClassAudit.Proofs.Pattern.Runs
import ClassAudit.Proofs.Project.GlobReader
/-!
# Globs that cover whole directories

A glob that ends in a double star below a directory matches everything in a
directory as soon as it matches one name in it.  What the glob reads up to its
last slash is a part of the directory's own path.
-/

namespace ClassAudit.Glob

open Regex

/-- The bytes that a glob reads of a path. -/
def pathBytes (names : List Text) : List UInt8 :=
  bytes (names.intersperse ['/']).flatten

theorem bytes_append (front back : Text) : bytes (front ++ back) = bytes front ++ bytes back := by
  unfold bytes
  exact List.flatMap_append

theorem bytes_slash_cons (text : Text) : bytes ('/' :: text) = 47 :: bytes text := by
  rfl

theorem pathBytes_cons {name : Text} {names : List Text} (h : names ≠ []) :
    pathBytes (name :: names) = bytes name ++ 47 :: pathBytes names := by
  cases names with
  | nil => exact absurd rfl h
  | cons next names =>
    unfold pathBytes
    rw [List.intersperse_cons_cons, List.flatten_cons, List.flatten_cons, bytes_append]
    exact congrArg _ (bytes_slash_cons _)

theorem pathBytes_append {directory rest : List Text} (hdirectory : directory ≠ [])
    (hrest : rest ≠ []) :
    pathBytes (directory ++ rest) = pathBytes directory ++ 47 :: pathBytes rest := by
  induction directory with
  | nil => exact absurd rfl hdirectory
  | cons name directory ih =>
    rw [List.cons_append, pathBytes_cons (by simp [hrest])]
    cases directory with
    | nil => simp [pathBytes]
    | cons next directory =>
      rw [ih (List.cons_ne_nil _ _), pathBytes_cons (List.cons_ne_nil _ _), List.append_assoc]
      rfl

/-! ## The expression of a covering glob -/

theorem partRegexes_append (front back : List Part) :
    partRegexes (front ++ back) = partRegexes front ++ partRegexes back := by
  induction front with
  | nil => simp [partRegexes]
  | cons part front ih =>
    rw [List.cons_append, partRegexes, partRegexes, ih]
    cases partRegex part <;> rfl

theorem regexOf_covering (front : List Part) :
    regexOf (front ++ [.allBelow]) = concat (partRegexes front ++ [seq slash anything]) := by
  have hparts : partRegexes (front ++ [.allBelow]) = partRegexes front ++ [seq slash anything] := by
    rw [partRegexes_append]
    rfl
  unfold regexOf
  split
  · rename_i h
    simp [List.append_eq_cons_iff] at h
  · rw [hparts]

theorem runs_anything (place : Place UInt8) : ∃ previous, Runs anything place ⟨previous, []⟩ := by
  obtain ⟨previous, rest⟩ := place
  induction rest generalizing previous with
  | nil => exact ⟨previous, .starNil⟩
  | cons byte rest ih =>
    obtain ⟨last, hrun⟩ := ih (some byte)
    exact ⟨last, .starCons (.item rfl) (by simp) hrun⟩

theorem exists_rest_of_runs_slash {previous : Option UInt8} {rest : List UInt8}
    {later : Place UInt8} (h : Runs slash ⟨previous, rest⟩ later) : ∃ back, rest = 47 :: back := by
  generalize hplace : (⟨previous, rest⟩ : Place UInt8) = place at h
  cases h with
  | item htest =>
    obtain ⟨-, rfl⟩ := Place.mk.inj hplace
    exact ⟨_, by rw [beq_iff_eq.1 htest]⟩

/-- A text matches when the front of the glob runs up to a slash of it. -/
theorem matchesAll_covering_iff {regexes : List (Regex UInt8)} {text : List UInt8} :
    (concat (regexes ++ [seq slash anything])).matchesAll text = true ↔
      ∃ previous back, Runs (concat regexes) ⟨none, text⟩ ⟨previous, 47 :: back⟩ := by
  rw [matchesAll_iff]
  constructor
  · rintro ⟨last, h⟩
    obtain ⟨⟨previous, rest⟩, hfront, hlast⟩ := runs_concat_append.1 h
    obtain ⟨_, hbelow, -⟩ := runs_seq_iff.1 hlast
    obtain ⟨_, hslash, -⟩ := runs_seq_iff.1 hbelow
    obtain ⟨back, rfl⟩ := exists_rest_of_runs_slash hslash
    exact ⟨previous, back, hfront⟩
  · rintro ⟨previous, back, hfront⟩
    obtain ⟨last, hrest⟩ := runs_anything ⟨some 47, back⟩
    exact ⟨last, runs_concat_append.2 ⟨_, hfront, .seq (.seq (.item rfl) hrest) .empty⟩⟩

/-- A slash before which a glob may stop in the path of a name in a directory is a slash of every
path through that directory. -/
theorem exists_slash_of_probe {directory read back rest : List UInt8}
    (h : directory ++ 47 :: [95] = read ++ 47 :: back) :
    ∃ later, directory ++ 47 :: rest = read ++ 47 :: later := by
  rcases List.append_eq_append_iff.1 h with ⟨extra, rfl, hrest⟩ | ⟨extra, rfl, hrest⟩
  · cases extra with
    | nil => exact ⟨rest, by simp⟩
    | cons byte extra =>
      -- Behind the directory's own slash the probe has a single byte, which is no slash.
      obtain ⟨-, hend⟩ := List.cons.inj hrest
      cases extra with
      | nil => cases hend
      | cons byte extra =>
        obtain ⟨-, hend⟩ := List.cons.inj hend
        exact absurd hend (by simp)
  · cases extra with
    | nil => exact ⟨rest, by simp⟩
    | cons byte extra =>
      obtain ⟨rfl, -⟩ := List.cons.inj hrest
      exact ⟨extra ++ 47 :: rest, by simp⟩

theorem matchesAll_of_probe {parts : List Part} {directory rest : List Text}
    (hcovers : CoversDirectories parts)
    (hdirectory : directory ≠ []) (hrest : rest ≠ [])
    (h : (regexOf parts).matchesAll (pathBytes (directory ++ [['_']])) = true) :
    (regexOf parts).matchesAll (pathBytes (directory ++ rest)) = true := by
  rcases hcovers with rfl | ⟨front, rfl⟩
  · exact matchesAll_iff.2 (runs_anything _)
  · rw [regexOf_covering, matchesAll_covering_iff] at h ⊢
    obtain ⟨previous, back, hrun⟩ := h
    obtain ⟨read, hread⟩ := hrun.suffix
    have hname : pathBytes [['_']] = [95] := by rfl
    have hprobe : pathBytes directory ++ 47 :: [95] = read ++ 47 :: back := by
      rw [hread, ← hname]
      exact (pathBytes_append hdirectory (List.cons_ne_nil ['_'] [])).symm
    obtain ⟨later, hlater⟩ := exists_slash_of_probe hprobe
    refine ⟨previous, later, ?_⟩
    rw [pathBytes_append hdirectory hrest, hlater]
    exact hrun.replace_rest hread.symm rfl

end ClassAudit.Glob

namespace ClassAudit.Globs

/-- Globs that end in a double star and match a name in a directory match everything below it. -/
theorem isMatch_of_probe {globs : List Text}
    (hglobs : ∀ glob ∈ globs, ∃ front, glob = front ++ ['/', '*', '*'])
    {directory rest : List Text} (hdirectory : directory ≠ []) (hrest : rest ≠ [])
    (h : (ofTexts globs).isMatch (directory ++ [['_']]) = true) :
    (ofTexts globs).isMatch (directory ++ rest) = true := by
  unfold isMatch at h ⊢
  obtain ⟨regex, hregex, hmatch⟩ := List.any_eq_true.1 h
  refine List.any_eq_true.2 ⟨regex, hregex, ?_⟩
  obtain ⟨glob, hglob, hread⟩ := List.mem_filterMap.1 hregex
  obtain ⟨parts, hparts, rfl⟩ := Option.map_eq_some_iff.1 hread
  obtain ⟨front, rfl⟩ := hglobs glob hglob
  have hcovers := Glob.coversDirectories_of_parts? hparts
  exact Glob.matchesAll_of_probe hcovers hdirectory hrest hmatch

end ClassAudit.Globs
