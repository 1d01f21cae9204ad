import ClassAudit.Proofs.Css.Lexemes
/-!
# Cells of comments

Where a masked sheet shows a blank for another character, the character belongs
to a comment.  Behind a visible cell the first such character is the slash that
opens the comment, since the cells of a sheet are those of its lexemes.
-/

namespace ClassAudit.Css

/-- Whether a cell hides a character of a comment, other than a blank. -/
def Cell.isCommented (cell : Cell) : Bool :=
  cell.shown == ' ' && cell.source != ' '

theorem Cell.isCommented_plain (c : Char) : (Cell.plain c).isCommented = false := by
  simp [isCommented, plain]

theorem Cell.isCommented_struck (c : Char) : (Cell.struck c).isCommented = false := by
  have hshown : (Cell.struck c).shown ≠ ' ' := struckChar_ne (by decide)
  simp [isCommented, hshown]

theorem Cell.source_of_shown {cell : Cell} (h : cell.isCommented = false)
    (hshown : cell.shown = ' ') : cell.source = ' ' := by
  simpa [isCommented, hshown] using h

theorem Lexeme.isCommented_of_mem_cells {lexeme : Lexeme} (h : lexeme.isComment = false)
    {cell : Cell} (hcell : cell ∈ lexeme.cells) : cell.isCommented = false := by
  cases lexeme with
  | char c =>
    rw [List.mem_singleton.1 hcell]
    exact Cell.isCommented_plain c
  | comment content => cases h
  | string quote content =>
    rcases List.mem_cons.1 hcell with rfl | hcell
    · exact Cell.isCommented_plain quote
    · rcases List.mem_append.1 hcell with hcell | hcell
      · obtain ⟨c, -, rfl⟩ := List.mem_map.1 hcell
        exact Cell.isCommented_struck c
      · rw [List.mem_singleton.1 hcell]
        exact Cell.isCommented_plain quote

theorem Lexeme.eq_comment {lexeme : Lexeme} (h : lexeme.isComment = true) :
    ∃ content, lexeme = comment content := by
  cases lexeme with
  | char c => cases h
  | comment content => exact ⟨content, rfl⟩
  | string quote content => cases h

/-- The first character of a comment that is found in the cells is a slash. -/
def OpensFirst : List Cell → Prop
  | [] => True
  | cell :: rest => if cell.isCommented then cell.source = '/' else OpensFirst rest

/-- Behind a visible cell a comment is found from its start on. -/
def OpensComments : List Cell → Prop
  | [] => True
  | cell :: rest => (cell.shown ≠ ' ' → OpensFirst rest) ∧ OpensComments rest

theorem OpensFirst.left {front rest : List Cell} (h : OpensFirst (front ++ rest)) :
    OpensFirst front := by
  induction front with
  | nil => trivial
  | cons cell front ih =>
    rw [List.cons_append, OpensFirst] at h
    rw [OpensFirst]
    split at h
    · rwa [if_pos ‹_›]
    · rw [if_neg ‹_›]
      exact ih h

theorem OpensFirst.unseen_append {front rest : List Cell}
    (hfront : ∀ cell ∈ front, cell.isCommented = false) (h : OpensFirst rest) :
    OpensFirst (front ++ rest) := by
  induction front with
  | nil => exact h
  | cons cell front ih =>
    obtain ⟨hcell, hfront⟩ := List.forall_mem_cons.1 hfront
    rw [List.cons_append, OpensFirst, hcell]
    exact ih hfront

/-- If a comment is found, so is its slash. -/
theorem OpensFirst.exists_slash {cells : List Cell} (h : OpensFirst cells) {cell : Cell}
    (hmem : cell ∈ cells) (hcell : cell.isCommented = true) :
    ∃ slash ∈ cells, slash.isCommented = true ∧ slash.source = '/' := by
  induction cells with
  | nil => cases hmem
  | cons first rest ih =>
    rw [OpensFirst] at h
    split at h
    · exact ⟨first, List.mem_cons_self, ‹_›, h⟩
    · rcases List.mem_cons.1 hmem with rfl | hmem
      · exact absurd hcell ‹_›
      · obtain ⟨slash, hslash, hspec⟩ := ih h hmem
        exact ⟨slash, List.mem_cons_of_mem first hslash, hspec⟩

namespace OpensComments

theorem of_part {part cells : List Cell} (hpart : part <:+: cells) (h : OpensComments cells) :
    OpensComments part := by
  obtain ⟨front, back, rfl⟩ := hpart
  have hright : ∀ front : List Cell, OpensComments (front ++ (part ++ back)) →
      OpensComments (part ++ back) := by
    intro front h
    induction front with
    | nil => exact h
    | cons cell front ih => exact ih h.2
  rw [List.append_assoc] at h
  have hrest := hright front h
  clear h hright
  induction part with
  | nil => trivial
  | cons cell part ih => exact ⟨fun hcell => (hrest.1 hcell).left, ih hrest.2⟩

theorem first_behind {front behind : List Cell} {last : Cell}
    (h : OpensComments (front ++ last :: behind)) (hlast : last.shown ≠ ' ') :
    OpensFirst behind :=
  (h.of_part (List.suffix_append front (last :: behind)).isInfix).1 hlast

theorem blank_append {front rest : List Cell} (hfront : ∀ cell ∈ front, cell.shown = ' ')
    (h : OpensComments rest) : OpensComments (front ++ rest) := by
  induction front with
  | nil => exact h
  | cons cell front ih =>
    obtain ⟨hcell, hfront⟩ := List.forall_mem_cons.1 hfront
    exact ⟨fun hne => absurd hcell hne, ih hfront⟩

theorem unseen_append {front rest : List Cell}
    (hfront : ∀ cell ∈ front, cell.isCommented = false) (hfirst : OpensFirst rest)
    (h : OpensComments rest) : OpensComments (front ++ rest) := by
  induction front with
  | nil => exact h
  | cons cell front ih =>
    obtain ⟨-, hfront⟩ := List.forall_mem_cons.1 hfront
    exact ⟨fun _ => .unseen_append hfront hfirst, ih hfront⟩

end OpensComments

theorem opens_lexemes (list : List Lexeme) :
    OpensFirst (list.flatMap Lexeme.cells) ∧ OpensComments (list.flatMap Lexeme.cells) := by
  induction list with
  | nil => exact ⟨trivial, trivial⟩
  | cons lexeme list ih =>
    obtain ⟨hfirst, hall⟩ := ih
    rw [List.flatMap_cons]
    cases hcomment : lexeme.isComment with
    | false =>
      have hunseen : ∀ cell ∈ lexeme.cells, cell.isCommented = false :=
        fun _ => Lexeme.isCommented_of_mem_cells hcomment
      exact ⟨.unseen_append hunseen hfirst, .unseen_append hunseen hfirst hall⟩
    | true =>
      obtain ⟨content, rfl⟩ := Lexeme.eq_comment hcomment
      refine ⟨rfl, .blank_append ?_ hall⟩
      intro cell hcell
      obtain ⟨c, -, rfl⟩ := List.mem_map.1 hcell
      rfl

theorem opensComments_of_mask {css : Text} {cells : List Cell} (h : mask css = .ok cells) :
    OpensComments cells := by
  rw [cells_of_mask h]
  exact (opens_lexemes (lexemes css)).2

end ClassAudit.Css
