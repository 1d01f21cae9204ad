import ClassAudit.Proofs.Css.CommentedCells
import ClassAudit.Theme.Import
/-!
# Imports beside comments

The lines of a sheet are searched for imports without regard to comments.  On a
line whose target stands before its first comment, overwriting the comments of
the sheet with blanks makes no difference: the comment that follows a target
without quotes starts with a slash, and a slash behind the name of the package
leads to a path inside it.
-/

namespace ClassAudit

/-! ## The target of a line -/

namespace Theme

/-- What the import on a line names. -/
def lineTarget? (line : Text) : Option Text :=
  ((Text.trimStart line).after? "@import".toList).bind importTarget?

/-- The text from a target on. -/
def targetStart (rest : Text) : Text :=
  (((Text.trimStart rest).after? "url(".toList).map Text.trimStart).getD (Text.trimStart rest)

/-- The target that a text starts with. -/
def readTarget? : Text → Option Text
  | [] => none
  | c :: rest =>
    if c = '"' ∨ c = '\'' ∨ c = '\x60' then (Text.cut? c rest).map Prod.fst
    else some ((c :: rest).takeWhile fun d => !endsTarget d)

theorem importTarget?_eq (rest : Text) :
    importTarget? rest = readTarget? (targetStart rest) := by
  unfold importTarget?
  simp only
  rw [← targetStart]
  cases targetStart rest <;> rfl

theorem targetStart_suffix (rest : Text) : targetStart rest <:+ rest := by
  have hstart : Text.trimStart rest <:+ rest := List.dropWhile_suffix _
  unfold targetStart
  cases hurl : (Text.trimStart rest).after? "url(".toList with
  | none => exact hstart
  | some inner =>
    have hinner : inner <:+ Text.trimStart rest :=
      ⟨"url(".toList, (Text.after?_eq_some_iff.1 hurl).symm⟩
    exact ((List.dropWhile_suffix _).trans hinner).trans hstart

/-- A text that does not end in a blank goes on with a blank or a slash, if at all. -/
def Seam (front rest : Text) : Prop :=
  front.endsBlank = false → ∀ c ∈ rest.head?, c = ' ' ∨ c = '/'

theorem Seam.of_suffix {whole front rest : Text} (h : Seam whole rest) (hsuffix : front <:+ whole)
    (hne : front ≠ []) : Seam front rest := by
  obtain ⟨lead, rfl⟩ := hsuffix
  exact fun hends => h (Text.endsBlank_append hne hends lead)

/-- No character but its own completes `url(`. -/
theorem after?_url_append {start rest : Text} (h : start.after? "url(".toList = none)
    (hseam : Seam start rest) : (start ++ rest).after? "url(".toList = none := by
  rw [Option.eq_none_iff_forall_ne_some]
  intro behind hbehind
  rw [Text.after?_eq_some_iff, List.append_eq_append_iff] at hbehind
  rcases hbehind with ⟨tail, hword, hrest⟩ | ⟨tail, hstart, -⟩
  · cases tail with
    | nil =>
      rw [List.append_nil] at hword
      rw [← hword] at h
      exact absurd h (by decide)
    | cons c tail =>
      have hmem : ∀ d ∈ start ++ c :: tail, Text.isBlank d = false ∧ d ≠ ' ' ∧ d ≠ '/' := by
        rw [← hword]
        decide
      have hends : start.endsBlank = false :=
        Text.endsBlank_of_unblank fun d hd => (hmem d (List.mem_append_left _ hd)).1
      obtain ⟨-, hblank, hslash⟩ := hmem c (by simp)
      exact (hseam hends c (by rw [hrest]; rfl)).elim hblank hslash
  · rw [hstart, Text.after?_eq_some_iff.2 rfl] at h
    cases h

theorem targetStart_append {front rest : Text} (hne : targetStart front ≠ [])
    (hseam : Seam front rest) : targetStart (front ++ rest) = targetStart front ++ rest := by
  have hstart : Text.trimStart front ≠ [] := by
    intro hnil
    rw [targetStart, hnil] at hne
    exact hne rfl
  unfold targetStart at hne ⊢
  rw [Text.trimStart_append hstart]
  cases hurl : (Text.trimStart front).after? "url(".toList with
  | none =>
    rw [after?_url_append hurl (hseam.of_suffix (List.dropWhile_suffix _) hstart)]
    rfl
  | some inner =>
    rw [hurl] at hne
    rw [Text.after?_append hurl]
    exact Text.trimStart_append hne rest

theorem isFrameworkTarget_iff (target : Text) :
    isFrameworkTarget target = true ↔ frameworkPackage ++ ['/'] <+: target ++ ['/'] := by
  unfold isFrameworkTarget
  rw [Bool.or_eq_true, beq_iff_eq, Text.startsWith_iff, List.prefix_concat_iff,
    List.append_left_inj, eq_comm]

/-- A slash behind a target makes a path of it and changes nothing else. -/
theorem isFrameworkTarget_append_slash (target rest : Text) :
    isFrameworkTarget (target ++ '/' :: rest) = isFrameworkTarget target := by
  have hfront : target ++ ['/'] <+: target ++ '/' :: rest ++ ['/'] := ⟨rest ++ ['/'], by simp⟩
  rw [Bool.eq_iff_iff, isFrameworkTarget_iff, isFrameworkTarget_iff]
  constructor
  · intro hwhole
    rcases List.prefix_or_prefix_of_prefix hwhole hfront with hshort | hlong
    · exact hshort
    · rcases List.prefix_concat_iff.1 hlong with heq | hpackage
      · exact heq ▸ List.prefix_rfl
      · have hmem : '/' ∈ frameworkPackage := hpackage.subset (by simp)
        exact absurd hmem (by decide)
  · exact fun hshort => hshort.trans hfront

theorem readTarget?_append {text rest target : Text} (h : readTarget? text = some target)
    (hseam : Seam text rest) :
    (readTarget? (text ++ rest)).any isFrameworkTarget = isFrameworkTarget target := by
  cases text with
  | nil => cases h
  | cons c text =>
    rw [readTarget?] at h
    rw [List.cons_append, readTarget?]
    split at h
    · rename_i hquote
      obtain ⟨⟨inner, after⟩, hcut, rfl⟩ := Option.map_eq_some_iff.1 h
      obtain ⟨rfl, hinner⟩ := Text.cut?_eq_some_iff.1 hcut
      have hlater : Text.cut? c (inner ++ c :: after ++ rest) = some (inner, after ++ rest) :=
        Text.cut?_eq_some_iff.2 ⟨by simp, hinner⟩
      rw [if_pos hquote, hlater]
      rfl
    · rename_i hquote
      obtain rfl := Option.some.inj h
      rw [if_neg hquote, Option.any_some, ← List.cons_append, List.takeWhile_append]
      split
      -- The target runs up to the seam: a blank ends it there, a slash makes a path of it.
      · rename_i hlength
        have hall := (List.takeWhile_prefix _).eq_of_length hlength
        have hends : Text.endsBlank (c :: text) = false := by
          apply Text.endsBlank_of_unblank
          intro d hd
          rw [← hall] at hd
          have hopen := List.mem_takeWhile_imp hd
          simp only [endsTarget, Bool.not_or, Bool.and_eq_true] at hopen
          simpa using hopen.1.1
        rw [hall]
        cases rest with
        | nil => rw [List.takeWhile_nil, List.append_nil]
        | cons d rest =>
          rcases hseam hends d rfl with rfl | rfl
          · rw [List.takeWhile_cons_of_neg (by decide), List.append_nil]
          · rw [List.takeWhile_cons_of_pos (by decide), isFrameworkTarget_append_slash]
      · rfl

/-- What follows the target of a line does not count. -/
theorem lineImports_append {front rest : Text} (h : (lineTarget? front).isSome = true)
    (hseam : Seam front rest) : lineImports (front ++ rest) = lineImports front := by
  obtain ⟨target, htarget⟩ := Option.isSome_iff_exists.1 h
  obtain ⟨behind, hword, hread⟩ := Option.bind_eq_some_iff.1 htarget
  have hstart : Text.trimStart front ≠ [] := by
    intro hnil
    rw [hnil] at hword
    cases hword
  rw [importTarget?_eq] at hread
  have hne : targetStart behind ≠ [] := by
    intro hnil
    rw [hnil] at hread
    cases hread
  have hbehind : behind <:+ front :=
    List.IsSuffix.trans ⟨"@import".toList, (Text.after?_eq_some_iff.1 hword).symm⟩
      (List.dropWhile_suffix _)
  have hrest : behind ≠ [] := by
    rintro rfl
    exact hne rfl
  have hfront : lineImports front = isFrameworkTarget target := by
    rw [lineImports, ← lineTarget?, htarget, Option.any_some]
  rw [hfront, lineImports, Text.trimStart_append hstart, Text.after?_append hword, Option.bind_some,
    importTarget?_eq, targetStart_append hne (hseam.of_suffix hbehind hrest)]
  exact readTarget?_append hread (hseam.of_suffix ((targetStart_suffix behind).trans hbehind) hne)

end Theme

/-! ## Lines without comments -/

namespace Css

/-- The text of a lexeme, blank but for its line breaks if it is a comment. -/
def Lexeme.overwritten : Lexeme → Text
  | comment content => (comment content).source.map fun c => if c = '\n' then c else ' '
  | lexeme => lexeme.source

/-- A sheet with a blank for each character of its comments but the line breaks. -/
def overwritten (css : Text) : Text :=
  (lexemes css).flatMap Lexeme.overwritten

example : overwritten "a/*b\n*/'/**/'".toList = "a   \n  '/**/'".toList := by decide

/-- The character that stands for a cell where comments are overwritten. -/
def Cell.overwritten (cell : Cell) : Char :=
  if cell.shown = ' ' ∧ cell.source ≠ '\n' then ' ' else cell.source

theorem Cell.overwritten_of_not_isCommented {cell : Cell} (h : cell.isCommented = false) :
    cell.overwritten = cell.source := by
  unfold overwritten
  split
  · rename_i hshown
    exact (source_of_shown h hshown.1).symm
  · rfl

theorem map_overwritten_of_unseen {cells : List Cell}
    (h : ∀ cell ∈ cells, cell.isCommented = false) :
    cells.map Cell.overwritten = sourceOf cells :=
  List.map_congr_left fun cell hcell => Cell.overwritten_of_not_isCommented (h cell hcell)

theorem Cell.overwritten_beq (cell : Cell) :
    (cell.overwritten == '\n') = (cell.source == '\n') := by
  unfold overwritten
  split
  · rename_i hshown
    simp [hshown.2]
  · rfl

theorem map_overwritten_lexeme (lexeme : Lexeme) :
    lexeme.cells.map Cell.overwritten = lexeme.overwritten := by
  cases hcomment : lexeme.isComment with
  | false =>
    have hself : lexeme.overwritten = lexeme.source := by
      cases lexeme with
      | char c => rfl
      | comment content => cases hcomment
      | string quote content => rfl
    rw [map_overwritten_of_unseen fun _ => Lexeme.isCommented_of_mem_cells hcomment,
      Lexeme.sourceOf_cells, hself]
  | true =>
    obtain ⟨content, rfl⟩ := Lexeme.eq_comment hcomment
    show ((Lexeme.comment content).source.map .blank).map Cell.overwritten =
      (Lexeme.comment content).source.map fun c => if c = '\n' then c else ' '
    rw [List.map_map]
    apply List.map_congr_left
    intro c _
    by_cases hc : c = '\n'
    · simp [Cell.overwritten, Cell.blank, hc]
    · simp [Cell.overwritten, Cell.blank, hc]

theorem overwritten_eq {css : Text} {cells : List Cell} (h : mask css = .ok cells) :
    overwritten css = cells.map Cell.overwritten := by
  rw [cells_of_mask h, List.map_flatMap, overwritten]
  simp only [map_overwritten_lexeme]

/-- The lines of a sheet, cell by cell. -/
def sheetLines (cells : List Cell) : List (List Cell) :=
  cells.splitOnP fun cell => cell.source == '\n'

/-- The lines of anything that shows the line breaks of a sheet. -/
theorem splitOn_map {read : Cell → Char}
    (h : ∀ cell, (read cell == '\n') = (cell.source == '\n')) (cells : List Cell) :
    (cells.map read).splitOn '\n' = (sheetLines cells).map (List.map read) := by
  unfold sheetLines
  induction cells with
  | nil => rfl
  | cons cell cells ih =>
    rw [List.map_cons, List.splitOn_cons_eq_if_modifyHead, List.splitOnP_cons_eq_if_modifyHead,
      h cell, ih]
    split
    · rfl
    · obtain ⟨first, rest, hsplit⟩ := List.exists_cons_of_ne_nil
        (List.splitOnP_ne_nil (fun cell => cell.source == '\n') cells)
      rw [hsplit]
      rfl

theorem infix_of_mem_sheetLines {cells line : List Cell} (h : line ∈ sheetLines cells) :
    line <:+: cells := by
  have hlines : ∀ cells : List Cell, ∃ first rest, sheetLines cells = first :: rest ∧
      first <+: cells ∧ ∀ line ∈ rest, line <:+: cells := by
    intro cells
    induction cells with
    | nil => exact ⟨[], [], rfl, List.nil_prefix, List.forall_mem_nil _⟩
    | cons cell cells ih =>
      obtain ⟨first, rest, hsplit, hfirst, hrest⟩ := ih
      have hgrow : ∀ line ∈ rest, line <:+: cell :: cells :=
        fun line hline => (hrest line hline).trans (List.suffix_cons cell cells).isInfix
      unfold sheetLines at hsplit ⊢
      rw [List.splitOnP_cons_eq_if_modifyHead, hsplit]
      split
      · refine ⟨[], first :: rest, rfl, List.nil_prefix, List.forall_mem_cons.2 ⟨?_, hgrow⟩⟩
        exact hfirst.isInfix.trans (List.suffix_cons cell cells).isInfix
      · exact ⟨cell :: first, rest, rfl, (List.prefix_cons_inj cell).2 hfirst, hgrow⟩
  obtain ⟨first, rest, hsplit, hfirst, hrest⟩ := hlines cells
  rw [hsplit] at h
  rcases List.mem_cons.1 h with rfl | h
  · exact hfirst.isInfix
  · exact hrest line h

/-- The cells of a line before its first comment. -/
def ahead (line : List Cell) : List Cell :=
  line.takeWhile fun cell => !cell.isCommented

/-- The cells of a line from its first comment on. -/
def fromComment (line : List Cell) : List Cell :=
  line.dropWhile fun cell => !cell.isCommented

theorem seam_ahead {line : List Cell} (h : OpensComments line) (hne : ahead line ≠ [])
    {read : Cell → Char} (hread : ∀ cell : Cell, cell.isCommented = true → cell.source = '/' →
      read cell = ' ' ∨ read cell = '/') :
    Theme.Seam (sourceOf (ahead line)) ((fromComment line).map read) := by
  intro hends c hc
  obtain ⟨cell, hcell, rfl⟩ : ∃ cell, (fromComment line).head? = some cell ∧ read cell = c := by
    simpa using hc
  obtain ⟨rest, hrest⟩ := List.head?_eq_some_iff.1 hcell
  have hcommented : cell.isCommented = true := by
    have hfirst := List.head?_dropWhile_not (fun cell : Cell => !cell.isCommented) line
    rw [fromComment] at hcell
    rw [hcell] at hfirst
    simpa using hfirst
  obtain ⟨front, last, hsplit⟩ := (List.eq_nil_or_concat (ahead line)).resolve_left hne
  have hlast : last.shown ≠ ' ' := by
    intro hshown
    have hmem : last ∈ ahead line := by
      rw [hsplit]
      simp
    have hsource := Cell.source_of_shown (by simpa using List.mem_takeWhile_imp hmem) hshown
    rw [hsplit, sourceOf] at hends
    simp [Text.endsBlank, hsource] at hends
    exact absurd hends (by decide)
  have hline : line = front ++ last :: fromComment line := by
    have hparts : ahead line ++ fromComment line = line := List.takeWhile_append_dropWhile
    rw [hsplit, List.concat_eq_append, List.append_assoc] at hparts
    exact hparts.symm
  rw [hline] at h
  have hopens := h.first_behind hlast
  rw [hrest, OpensFirst, if_pos hcommented] at hopens
  exact hread cell hcommented hopens

end Css

namespace Theme

open Css

theorem lineImports_overwritten {line : List Cell} (h : OpensComments line)
    (hahead : lineImports (sourceOf line) = true ∨
      lineImports (line.map Cell.overwritten) = true →
        (lineTarget? (sourceOf (ahead line))).isSome = true) :
    lineImports (line.map Cell.overwritten) = lineImports (sourceOf line) := by
  by_cases himports : lineImports (sourceOf line) = true ∨
      lineImports (line.map Cell.overwritten) = true
  · have htarget := hahead himports
    have hne : ahead line ≠ [] := by
      intro hnil
      rw [hnil] at htarget
      cases htarget
    have hline : ahead line ++ fromComment line = line := List.takeWhile_append_dropWhile
    have hsource : lineImports (sourceOf line) = lineImports (sourceOf (ahead line)) := by
      have hseam := @seam_ahead line h hne Cell.source fun _ _ hslash => .inr hslash
      rw [← lineImports_append htarget hseam, ← sourceOf, ← sourceOf_append, hline]
    have hblank : lineImports (line.map Cell.overwritten) =
        lineImports (sourceOf (ahead line)) := by
      have hseam := @seam_ahead line h hne Cell.overwritten fun cell hcell hslash => by
        simp_all [Cell.overwritten, Cell.isCommented]
      have hself : (ahead line).map Cell.overwritten = sourceOf (ahead line) :=
        map_overwritten_of_unseen fun cell hcell => by simpa using List.mem_takeWhile_imp hcell
      rw [← lineImports_append htarget hseam, ← hself, ← List.map_append, hline]
    rw [hsource, hblank]
  · rw [not_or, Bool.not_eq_true, Bool.not_eq_true] at himports
    rw [himports.1, himports.2]

/-- Where every line that imports the framework, with its comments or with blanks for them, names
its target before the first comment, comments make no difference. -/
theorem importsFramework_overwritten {css : Text} {cells : List Cell} (h : mask css = .ok cells)
    (hahead : ∀ line ∈ sheetLines cells,
      lineImports (sourceOf line) = true ∨ lineImports (line.map Cell.overwritten) = true →
        (lineTarget? (sourceOf (ahead line))).isSome = true) :
    importsFramework (overwritten css) = importsFramework css := by
  have hline : ∀ line ∈ sheetLines cells,
      lineImports (line.map Cell.overwritten) = lineImports (sourceOf line) := by
    intro line hmem
    exact lineImports_overwritten
      ((opensComments_of_mask h).of_part (infix_of_mem_sheetLines hmem)) (hahead line hmem)
  unfold importsFramework
  rw [overwritten_eq h, ← sourceOf_of_maskFrom h, splitOn_map Cell.overwritten_beq, sourceOf,
    @splitOn_map Cell.source fun _ => rfl, List.any_map, List.any_map, Bool.eq_iff_iff,
    List.any_eq_true, List.any_eq_true]
  constructor
  · rintro ⟨line, hmem, himports⟩
    exact ⟨line, hmem, (hline line hmem).symm.trans himports⟩
  · rintro ⟨line, hmem, himports⟩
    exact ⟨line, hmem, (hline line hmem).trans himports⟩

/-- A sheet with comments on and between the lines of its imports. -/
def annotatedImports : Text :=
  "/* a\nb */\n@import url(tailwindcss/* c */);\n@import 'x'; /* @import \"tailwindcss\" */".toList

theorem importsFramework_annotatedImports :
    mask annotatedImports = .ok ((lexemes annotatedImports).flatMap Lexeme.cells) ∧
      importsFramework (overwritten annotatedImports) = importsFramework annotatedImports ∧
      importsFramework annotatedImports = true := by
  have hmask : mask annotatedImports =
      .ok ((lexemes annotatedImports).flatMap Lexeme.cells) := by decide +kernel
  refine ⟨hmask, importsFramework_overwritten hmask ?_, ?_⟩
  · decide +kernel
  · decide +kernel

/-- An import in a comment counts, and a comment before an import hides it. -/
theorem importsFramework_commented :
    let disabled := "/*\n@import \"tailwindcss\";\n*/".toList
    let hidden := "/* x */ @import \"tailwindcss\";".toList
    mask disabled = .ok ((lexemes disabled).flatMap Lexeme.cells) ∧
      importsFramework disabled = true ∧ importsFramework (overwritten disabled) = false ∧
      mask hidden = .ok ((lexemes hidden).flatMap Lexeme.cells) ∧
      importsFramework hidden = false ∧ importsFramework (overwritten hidden) = true := by
  decide +kernel

end Theme

end ClassAudit
