import ClassAudit.Proofs.Css.CommentedCells
/-!
# Cells without comments

A sheet whose comments are overwritten with blanks, one for each byte, has the
cells of the sheet with plain blanks for the commented ones.  So nothing that
is shown changes, and the parts of a sheet can be cleared one by one.
-/

namespace ClassAudit.Css

open Text (byteSize)

/-- The text of a lexeme, blank if it is a comment. -/
def Lexeme.uncommented : Lexeme → Text
  | comment content => blanked (comment content).source
  | lexeme => lexeme.source

/-- A sheet with a blank for each byte of its comments. -/
def uncommented (css : Text) : Text :=
  (lexemes css).flatMap Lexeme.uncommented

example : uncommented "a/*é*/'/**/'".toList = "a      '/**/'".toList := by decide

/-! ## Cleared cells -/

/-- The cells of a sheet in which a blank stands for each byte of a blanked cell. -/
def Cell.cleared (cell : Cell) : List Cell :=
  if cell.shown = ' ' then List.replicate cell.source.utf8Size (.plain ' ') else [cell]

def cleared (cells : List Cell) : List Cell :=
  cells.flatMap Cell.cleared

@[simp] theorem cleared_cons (cell : Cell) (cells : List Cell) :
    cleared (cell :: cells) = cell.cleared ++ cleared cells := rfl

@[simp] theorem cleared_append (front rest : List Cell) :
    cleared (front ++ rest) = cleared front ++ cleared rest :=
  List.flatMap_append

namespace Cell

theorem cleared_of_ne {cell : Cell} (h : cell.shown ≠ ' ') : cell.cleared = [cell] :=
  if_neg h

theorem cleared_of_eq {cell : Cell} (h : cell.shown = ' ') :
    cell.cleared = List.replicate cell.source.utf8Size (.plain ' ') :=
  if_pos h

@[simp] theorem cleared_blank (c : Char) :
    (Cell.blank c).cleared = List.replicate c.utf8Size (.plain ' ') := rfl

theorem cleared_ne_nil (cell : Cell) : cell.cleared ≠ [] := by
  unfold cleared
  split
  · rw [Ne, List.replicate_eq_nil_iff]
    exact Nat.ne_of_gt (Char.utf8Size_pos _)
  · simp

theorem shown_of_mem_cleared {cell other : Cell} (h : other ∈ cell.cleared) :
    other.shown = cell.shown := by
  unfold cleared at h
  split at h
  · rename_i hshown
    rw [List.eq_of_mem_replicate h, hshown]
    rfl
  · rw [List.mem_singleton.1 h]

theorem render_cleared (cell : Cell) : Css.render cell.cleared = cell.render := by
  unfold cleared render
  split
  · induction cell.source.utf8Size with
    | zero => rfl
    | succ count ih =>
      rw [List.replicate_succ, List.replicate_succ, ← ih]
      rfl
  · rename_i hshown
    simp [Css.render, render, hshown]

end Cell

theorem render_cleared (cells : List Cell) : render (cleared cells) = render cells := by
  induction cells with
  | nil => rfl
  | cons cell cells ih =>
    rw [cleared_cons, render, List.flatMap_append, ← render, ← render, Cell.render_cleared, ih]
    rfl

theorem reverse_cleared (cells : List Cell) : (cleared cells).reverse = cleared cells.reverse := by
  have hcell : List.reverse ∘ Cell.cleared = Cell.cleared := by
    funext cell
    unfold Cell.cleared
    show (if _ then _ else _ : List Cell).reverse = _
    split
    · exact List.reverse_replicate
    · rfl
  unfold cleared
  rw [List.reverse_flatMap, hcell]

theorem takeWhile_cleared (p : Char → Bool) (cells : List Cell) :
    (cleared cells).takeWhile (fun cell => p cell.shown) =
      cleared (cells.takeWhile fun cell => p cell.shown) := by
  induction cells with
  | nil => rfl
  | cons cell cells ih =>
    rw [cleared_cons]
    cases hp : p cell.shown with
    | true =>
      have hall : ∀ other ∈ cell.cleared, p other.shown = true := by
        intro other hother
        rw [Cell.shown_of_mem_cleared hother, hp]
      rw [List.takeWhile_append_of_pos hall, ih, List.takeWhile_cons, if_pos hp, cleared_cons]
    | false =>
      rw [List.takeWhile_cons_of_neg (by simp [hp])]
      cases hcell : cell.cleared with
      | nil => exact absurd hcell cell.cleared_ne_nil
      | cons first rest =>
        have hfirst : first.shown = cell.shown :=
          Cell.shown_of_mem_cleared (by rw [hcell]; exact List.mem_cons_self)
        exact List.takeWhile_cons_of_neg (by simp [hfirst, hp])

theorem dropWhile_cleared (p : Char → Bool) (cells : List Cell) :
    (cleared cells).dropWhile (fun cell => p cell.shown) =
      cleared (cells.dropWhile fun cell => p cell.shown) := by
  have hsplit : cleared cells = cleared (cells.takeWhile fun cell => p cell.shown) ++
      cleared (cells.dropWhile fun cell => p cell.shown) := by
    rw [← cleared_append, List.takeWhile_append_dropWhile]
  rw [← takeWhile_cleared] at hsplit
  exact List.append_cancel_left (List.takeWhile_append_dropWhile.trans hsplit)

theorem cleared_eq_self {cells : List Cell} (h : ∀ cell ∈ cells, cell.isCommented = false) :
    cleared cells = cells := by
  induction cells with
  | nil => rfl
  | cons cell cells ih =>
    obtain ⟨hcell, hcells⟩ := List.forall_mem_cons.1 h
    have hself : cell.cleared = [cell] := by
      by_cases hshown : cell.shown = ' '
      · have hsource := Cell.source_of_shown hcell hshown
        obtain ⟨source, shown⟩ := cell
        subst hshown hsource
        rfl
      · exact Cell.cleared_of_ne hshown
    rw [cleared_cons, hself, ih hcells]
    rfl

theorem sourceOf_cleared_lexeme (lexeme : Lexeme) :
    sourceOf (cleared lexeme.cells) = lexeme.uncommented := by
  cases hcomment : lexeme.isComment with
  | false =>
    have hself : lexeme.uncommented = lexeme.source := by
      cases lexeme with
      | char c => rfl
      | comment content => cases hcomment
      | string quote content => rfl
    rw [cleared_eq_self fun _ => Lexeme.isCommented_of_mem_cells hcomment,
      Lexeme.sourceOf_cells, hself]
  | true =>
    obtain ⟨content, rfl⟩ := Lexeme.eq_comment hcomment
    show sourceOf (cleared ((Lexeme.comment content).source.map .blank)) =
      blanked (Lexeme.comment content).source
    induction (Lexeme.comment content).source with
    | nil => rfl
    | cons c text ih =>
      rw [List.map_cons, cleared_cons, sourceOf_append, ih, Cell.cleared_blank, sourceOf,
        List.map_replicate]
      rfl

theorem uncommented_eq {css : Text} {cells : List Cell} (h : mask css = .ok cells) :
    uncommented css = sourceOf (cleared cells) := by
  rw [cells_of_mask h, uncommented]
  induction lexemes css with
  | nil => rfl
  | cons lexeme list ih =>
    rw [List.flatMap_cons, List.flatMap_cons, cleared_append, sourceOf_append,
      sourceOf_cleared_lexeme, ih]

/-! ## Masking without comments -/

/-- Clearing cells does not put a character of its own in front of them, a blank apart. -/
theorem head?_cleared (cells : List Cell) :
    (sourceOf (cleared cells)).head? = some ' ' ∨
      (sourceOf (cleared cells)).head? = (sourceOf cells).head? := by
  cases cells with
  | nil => exact .inr rfl
  | cons cell cells =>
    rw [cleared_cons, Cell.cleared]
    split
    · left
      cases hsize : cell.source.utf8Size with
      | zero => exact absurd hsize (Nat.ne_of_gt (Char.utf8Size_pos _))
      | succ count => rfl
    · exact .inr rfl

theorem maskFrom_blanks (count offset : Nat) (rest : Text) :
    maskFrom .sheet offset (List.replicate count ' ' ++ rest) =
      (maskFrom .sheet (offset + count) rest).map (List.replicate count (.plain ' ') ++ ·) := by
  induction count generalizing offset with
  | zero => cases h : maskFrom .sheet offset rest <;> simp [h, Except.map]
  | succ count ih =>
    have hstep : MaskStep .sheet offset [' '] (List.replicate count ' ' ++ rest) [.plain ' ']
        .sheet := .plain ' ' (by decide) (by simp) (by simp)
    have hread := hstep.maskFrom_eq
    rw [ih, Nat.add_assoc, Nat.add_comm (byteSize _)] at hread
    rw [List.replicate_succ, List.replicate_succ]
    refine hread.trans ?_
    show Except.map _ (Except.map _ (maskFrom .sheet (offset + (count + 1)) rest)) = _
    cases maskFrom .sheet (offset + (count + 1)) rest <;> rfl

/-- A mode as it is once the comment it is in is left out. -/
def MaskMode.uncommented : MaskMode → MaskMode
  | .comment _ => .sheet
  | mode => mode

theorem cleared_map_blank (text : Text) :
    cleared (text.map .blank) = List.replicate (byteSize text) (.plain ' ') := by
  induction text with
  | nil => rfl
  | cons c text ih =>
    rw [List.map_cons, cleared_cons, Cell.cleared_blank, ih, byteSize,
      List.replicate_append_replicate]

namespace MaskStep

variable {mode next : MaskMode} {offset : Nat} {read rest : Text} {cells : List Cell}

/-- A step blanks what it reads of a comment, strikes out what is inside a string, and keeps the
rest. -/
theorem cells_cases (h : MaskStep mode offset read rest cells next) :
    (mode.uncommented = .sheet ∧ next.uncommented = .sheet ∧ cells = read.map .blank) ∨
    (mode.uncommented = mode ∧ next.uncommented = next ∧ cells = plainCells read) ∨
    ∃ start quote, mode = .string start quote ∧ next = .string start quote ∧
      cells = read.map .struck := by
  cases h with
  | openComment | closeComment | comment => exact .inl ⟨rfl, rfl, rfl⟩
  | escape | openString | plain | closeString => exact .inr (.inl ⟨rfl, rfl, rfl⟩)
  | escapeInString | string => exact .inr (.inr ⟨_, _, rfl, rfl, rfl⟩)

/-- Outside of comments nothing is cleared. -/
theorem cleared_cases (h : MaskStep mode offset read rest cells next) :
    (mode.uncommented = .sheet ∧ next.uncommented = .sheet ∧ cells = read.map .blank) ∨
    (mode.uncommented = mode ∧ next.uncommented = next ∧ cleared cells = cells) := by
  obtain hblank | ⟨hmode, hnext, rfl⟩ | ⟨start, quote, rfl, rfl, rfl⟩ := h.cells_cases
  · exact .inl hblank
  · refine .inr ⟨hmode, hnext, cleared_eq_self fun cell hcell => ?_⟩
    obtain ⟨c, -, rfl⟩ := List.mem_map.1 hcell
    exact Cell.isCommented_plain c
  · refine .inr ⟨rfl, rfl, cleared_eq_self fun cell hcell => ?_⟩
    obtain ⟨c, -, rfl⟩ := List.mem_map.1 hcell
    exact Cell.isCommented_struck c

theorem maskFrom_cleared (h : MaskStep mode offset read rest cells next) {later : List Cell}
    (hlater : Masks next (offset + byteSize read) rest later) :
    maskFrom mode.uncommented offset (sourceOf (cleared (cells ++ later))) =
      (maskFrom next.uncommented (offset + byteSize read) (sourceOf (cleared later))).map
        (cleared cells ++ ·) := by
  rw [cleared_append, sourceOf_append]
  obtain ⟨hmode, hnext, rfl⟩ | ⟨hmode, hnext, hcells⟩ := h.cleared_cases
  · have hsource : sourceOf (List.replicate (byteSize read) (.plain ' ')) =
        List.replicate (byteSize read) ' ' := List.map_replicate
    rw [hmode, hnext, cleared_map_blank, hsource, maskFrom_blanks]
  · rw [hmode, hnext, hcells, h.sourceOf_cells]
    refine (h.behind (fun hnil => ?_) fun mark hmark hhead => ?_).maskFrom_eq
    · subst hnil
      rw [hlater.cells_eq_nil]
      rfl
    · obtain hblank | hsame := head?_cleared later
      · rw [hblank, Option.some.injEq] at hhead
        exact absurd (hhead ▸ hmark) (by decide)
      · rw [← hlater.sourceOf_cells, ← hsame, hhead]

end MaskStep

theorem Masks.maskFrom_cleared {mode : MaskMode} {offset : Nat} {text : Text} {cells : List Cell}
    (h : Masks mode offset text cells) :
    maskFrom mode.uncommented offset (sourceOf (cleared cells)) = .ok (cleared cells) := by
  induction h with
  | done => exact masks_iff.1 (.done _)
  | step hstep hrest ih =>
    rw [hstep.maskFrom_cleared hrest, ih, cleared_append]
    rfl

theorem mask_uncommented {css : Text} {cells : List Cell} (h : mask css = .ok cells) :
    mask (uncommented css) = .ok (cleared cells) := by
  rw [uncommented_eq h]
  exact (masks_iff.2 h).maskFrom_cleared

end ClassAudit.Css
