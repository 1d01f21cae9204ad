import ClassAudit.Proofs.Css.ClearedCells
import ClassAudit.Proofs.Css.MaskedBytes
/-!
# Offsets in a masked sheet

A cell shows as many bytes as its source has, so an offset means the same in a
sheet and in its masked text.  The fault of a sheet that cannot be masked is
where its string or comment starts, and masking a masked text changes nothing.
-/

namespace ClassAudit.Css

open Text (bytes isAscii byteSize)

/-! ## Sizes and boundaries -/

/-- Whether a cell shows as many bytes as its source has. -/
def Cell.Sized (cell : Cell) : Prop :=
  byteSize cell.render = cell.source.utf8Size

theorem MaskMode.sized_cell (mode : MaskMode) (c : Char) : (mode.cell c).Sized := by
  have hsource : (mode.cell c).source = c := by cases mode <;> rfl
  rw [Cell.Sized, hsource, ← Text.length_bytes, bytes_cell, List.length_map,
    String.length_utf8EncodeChar]

theorem Masks.exists_cell {mode : MaskMode} {offset : Nat} {text : Text} {cells : List Cell}
    (h : Masks mode offset text cells) {cell : Cell} (hcell : cell ∈ cells) :
    ∃ prior c, cell = MaskMode.cell prior c := by
  induction h with
  | done => cases hcell
  | step hstep _ ih =>
    rcases List.mem_append.1 hcell with hcell | hcell
    · obtain ⟨-, -, rfl⟩ | ⟨-, -, rfl⟩ | ⟨start, quote, -, -, rfl⟩ := hstep.cells_cases
      all_goals obtain ⟨c, -, rfl⟩ := List.mem_map.1 hcell
      · exact ⟨.comment 0, c, rfl⟩
      · exact ⟨.sheet, c, rfl⟩
      · exact ⟨.string start quote, c, rfl⟩
    · exact ih hcell

theorem sized_of_mask {css : Text} {cells : List Cell} (h : mask css = .ok cells) :
    ∀ cell ∈ cells, cell.Sized := by
  intro cell hcell
  obtain ⟨mode, c, rfl⟩ := (masks_iff.2 h).exists_cell hcell
  exact mode.sized_cell c

theorem byteSize_sourceOf (cells : List Cell) : byteSize (sourceOf cells) = sourceSize cells := by
  induction cells with
  | nil => rfl
  | cons cell cells ih =>
    rw [sourceSize, ← ih]
    rfl

theorem byteSize_render {cells : List Cell} (h : ∀ cell ∈ cells, cell.Sized) :
    byteSize (render cells) = sourceSize cells := by
  induction cells with
  | nil => rfl
  | cons cell cells ih =>
    obtain ⟨hcell, hcells⟩ := List.forall_mem_cons.1 h
    rw [render_cons, Text.byteSize_append, ih hcells, hcell, sourceSize]

/-- Where a character of the source starts, one of the masked text starts. -/
theorem isBoundary_render {cells : List Cell} (h : ∀ cell ∈ cells, cell.Sized) {offset : Nat}
    (hoffset : (sourceOf cells).IsBoundary offset) : (render cells).IsBoundary offset := by
  rw [Text.isBoundary_iff] at hoffset ⊢
  obtain ⟨front, back, hsource, rfl⟩ := hoffset
  obtain ⟨cellsFront, cellsBack, rfl, rfl, rfl⟩ := List.map_eq_append_iff.1 hsource
  refine ⟨render cellsFront, render cellsBack, render_append _ _, ?_⟩
  rw [byteSize_render fun cell hcell => h cell (List.mem_append_left _ hcell)]
  exact (byteSize_sourceOf cellsFront).symm

/-! ## Where faults start -/

/-- Whether a fault is a string or comment that starts where the fault says. -/
def Fault.StartsIn (css : Text) : Fault → Prop
  | unterminatedString start =>
    ∃ quote rest, css.StandsAt start (quote :: rest) ∧ (quote = '"' ∨ quote = '\'')
  | unterminatedComment start => ∃ rest, css.StandsAt start ('/' :: '*' :: rest)
  | _ => False

/-- Whether the string or comment that is being read starts where the mode says. -/
def MaskMode.StartsIn (css : Text) : MaskMode → Prop
  | sheet => True
  | comment start => (Fault.unterminatedComment start).StartsIn css
  | string start _ => (Fault.unterminatedString start).StartsIn css

theorem error_of_map {ε α β : Type} {x : Except ε α} {f : α → β} {fault : ε}
    (h : x.map f = .error fault) : x = .error fault := by
  cases x with
  | error other => exact congrArg Except.error (Except.error.inj h)
  | ok a => cases h

theorem MaskStep.startsIn {mode next : MaskMode} {offset : Nat} {css read rest : Text}
    {cells : List Cell} (h : MaskStep mode offset read rest cells next)
    (hat : css.StandsAt offset (read ++ rest)) (hmode : mode.StartsIn css) :
    next.StartsIn css := by
  cases h with
  | openComment => exact ⟨rest, hat⟩
  | openString quote hquote => exact ⟨quote, rest, hat, hquote⟩
  | closeComment | closeString => trivial
  | escape | plain | comment | escapeInString | string => exact hmode

theorem startsIn_of_maskFrom {mode : MaskMode} {offset : Nat} {css text : Text} {fault : Fault}
    (h : maskFrom mode offset text = .error fault) (hat : css.StandsAt offset text)
    (hmode : mode.StartsIn css) : fault.StartsIn css := by
  induction mode, offset, text using mask_induction with
  | done offset =>
    rw [masks_iff.1 (.done offset)] at h
    cases h
  | stop offset hstop =>
    rw [hstop.maskFrom_eq] at h
    cases h
    cases hstop with
    | comment | string | lineBreak => exact hmode
  | step hstep ih =>
    rw [hstep.maskFrom_eq] at h
    exact ih (error_of_map h) hat.behind (hstep.startsIn hat hmode)

/-- A sheet is refused only for a string or a comment, and the fault is where that starts. -/
theorem startsIn_of_maskedText {css : Text} {fault : Fault} (h : maskedText css = .error fault) :
    fault.StartsIn css :=
  startsIn_of_maskFrom (error_of_map h) (.start css) trivial

/-! ## Masking twice -/

theorem struckChar_spec (c : Char) :
    (struckChar c).utf8Size = c.utf8Size ∧ Cell.struck (struckChar c) = .plain (struckChar c) := by
  unfold Cell.struck struckChar
  cases hc : isAscii c with
  | true => exact ⟨(Text.utf8Size_of_isAscii hc).symm, rfl⟩
  | false => simp [hc, Cell.plain]

theorem maskFrom_map_struckChar {start : Nat} {quote : Char} (hquote : quote = '"' ∨ quote = '\'')
    (text : Text) (offset : Nat) (rest : Text) :
    maskFrom (.string start quote) offset (text.map struckChar ++ rest) =
      (maskFrom (.string start quote) (offset + byteSize text) rest).map
        (plainCells (text.map struckChar) ++ ·) := by
  induction text generalizing offset with
  | nil =>
    show maskFrom (.string start quote) offset rest =
      (maskFrom (.string start quote) offset rest).map fun later => later
    cases maskFrom (.string start quote) offset rest <;> rfl
  | cons c text ih =>
    have hother : struckChar c ≠ quote := by
      rcases hquote with rfl | rfl
      all_goals exact struckChar_ne (by decide)
    obtain ⟨hsize, hcell⟩ := struckChar_spec c
    have hstep : MaskStep (.string start quote) offset [struckChar c] (text.map struckChar ++ rest)
        [.struck (struckChar c)] (.string start quote) :=
      .string _ (fun hescape => absurd hescape (struckChar_ne (by decide)))
        (struckChar_ne (by decide)) hother
    have hread := hstep.maskFrom_eq
    have hbyte : offset + byteSize [struckChar c] + byteSize text =
        offset + byteSize (c :: text) := by
      rw [byteSize, byteSize, byteSize, hsize, Nat.add_assoc, Nat.add_zero]
    rw [ih, hbyte, hcell] at hread
    refine hread.trans ?_
    cases maskFrom (.string start quote) (offset + byteSize (c :: text)) rest <;> rfl

theorem head?_render (cell : Cell) (cells : List Cell) :
    (render (cell :: cells)).head? = some cell.shown := by
  rw [render_cons, Cell.render]
  split
  · rename_i hshown
    obtain ⟨count, hcount⟩ := Nat.exists_eq_succ_of_ne_zero cell.source.utf8Size_pos.ne'
    rw [hcount, hshown]
    rfl
  · rfl

/-- A mark of comments that is shown stands so in the source. -/
theorem Masks.head?_of_render {mode : MaskMode} {offset : Nat} {text : Text} {cells : List Cell}
    (h : Masks mode offset text cells) {mark : Char} (hmark : mark = '*' ∨ mark = '/')
    (hhead : (render cells).head? = some mark) : text.head? = some mark := by
  have hascii : isAscii mark = true ∧ mark ≠ '_' ∧ ' ' ≠ mark := by
    rcases hmark with rfl | rfl
    all_goals decide
  cases cells with
  | nil => cases hhead
  | cons cell cells =>
    obtain ⟨prior, c, rfl⟩ := h.exists_cell List.mem_cons_self
    rw [head?_render, Option.some.injEq] at hhead
    rw [← h.sourceOf_cells]
    cases prior with
    | sheet => exact congrArg some hhead
    | comment start => exact absurd hhead hascii.2.2
    | string start quote => exact absurd hhead (struckChar_ne ⟨hascii.1, hascii.2.1⟩)

theorem blanked_eq_replicate (text : Text) :
    blanked text = List.replicate (byteSize text) ' ' := by
  induction text with
  | nil => rfl
  | cons c text ih =>
    rw [blanked, List.flatMap_cons, ← blanked, ih, byteSize, List.replicate_append_replicate]

theorem MaskStep.maskFrom_render {mode next : MaskMode} {offset : Nat} {read rest : Text}
    {cells later : List Cell} (h : MaskStep mode offset read rest cells next)
    (hmode : mode.Quoted) (hlater : Masks next (offset + byteSize read) rest later) :
    maskFrom mode.uncommented offset (render (cells ++ later)) =
      (maskFrom next.uncommented (offset + byteSize read) (render later)).map
        (plainCells (render cells) ++ ·) := by
  rw [render_append]
  obtain ⟨hcode, hnext, rfl⟩ | ⟨hkept, hnext, rfl⟩ | ⟨start, quote, rfl, rfl, rfl⟩ :=
    h.cells_cases
  · have hcells : plainCells (List.replicate (byteSize read) ' ') =
        List.replicate (byteSize read) (.plain ' ') := List.map_replicate
    rw [hcode, hnext, render_map_blank, blanked_eq_replicate, hcells]
    exact maskFrom_blanks _ offset (render later)
  · rw [hkept, hnext, render_plainCells]
    refine (h.behind (fun hnil => ?_) fun mark hmark => hlater.head?_of_render hmark).maskFrom_eq
    subst hnil
    rw [hlater.cells_eq_nil]
    rfl
  · rw [render_map_struck]
    exact maskFrom_map_struckChar (hmode start quote rfl) read offset (render later)

theorem Masks.maskFrom_render {mode : MaskMode} {offset : Nat} {text : Text} {cells : List Cell}
    (h : Masks mode offset text cells) (hmode : mode.Quoted) :
    maskFrom mode.uncommented offset (render cells) = .ok (plainCells (render cells)) := by
  induction h with
  | done => exact masks_iff.1 (.done _)
  | step hstep hrest ih =>
    rw [hstep.maskFrom_render hmode hrest, ih (hstep.quoted hmode), render_append,
      plainCells_append]
    rfl

/-- A masked text is its own masked text. -/
theorem maskedText_of_maskedText {css shown : Text} (h : maskedText css = .ok shown) :
    maskedText shown = .ok shown := by
  obtain ⟨cells, hcells, rfl⟩ := exists_of_map_eq_ok h
  have hagain : mask (render cells) = .ok (plainCells (render cells)) :=
    (masks_iff.2 hcells).maskFrom_render MaskMode.quoted_sheet
  unfold maskedText
  rw [hagain]
  exact congrArg Except.ok (render_plainCells _)

end ClassAudit.Css
