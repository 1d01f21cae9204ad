import ClassAudit.Css.Error
/-!
# Masked style sheets

Before a style sheet is read, its comments are blanked and the contents of its strings are struck
out, so that no brace, comma or dot inside them counts. A masked sheet keeps one cell for each
character of its source, and its text has as many bytes as the source.
-/

namespace ClassAudit.Css

/-- A character of a style sheet and what is shown in its place. -/
structure Cell where
  source : Char
  shown : Char
  deriving DecidableEq

namespace Cell

/-- A character that is shown as it is. -/
def plain (c : Char) : Cell := ⟨c, c⟩

/-- A character of a comment. -/
def blank (c : Char) : Cell := ⟨c, ' '⟩

/-- A character inside a string: struck out if it is ASCII. -/
def struck (c : Char) : Cell := ⟨c, if Text.isAscii c then '_' else c⟩

/-- The masked text of a cell: a blank for each byte of a blanked character. -/
def render (cell : Cell) : Text :=
  if cell.shown = ' ' then List.replicate cell.source.utf8Size ' ' else [cell.shown]

end Cell

/-- The masked text of cells. -/
def render (cells : List Cell) : Text :=
  cells.flatMap Cell.render

/-- The source of cells. -/
def sourceOf (cells : List Cell) : Text :=
  cells.map Cell.source

/-- Where a style sheet is being read. -/
inductive MaskMode where
  | sheet
  /-- Inside the comment that starts at a byte. -/
  | comment (start : Nat)
  /-- Inside the string that starts at a byte with a quote. -/
  | string (start : Nat) (quote : Char)
  deriving DecidableEq

/-- Masks the rest of a style sheet from a byte on. A backslash takes the next character with it,
in a string and outside of one; a line break ends a string that is not closed. -/
def maskFrom : MaskMode → Nat → Text → Except Fault (List Cell)
  | .sheet, _, [] => .ok []
  | .comment start, _, [] => .error (.unterminatedComment start)
  | .string start _, _, [] => .error (.unterminatedString start)
  | .sheet, offset, '\\' :: c :: rest =>
    (maskFrom .sheet (offset + 1 + c.utf8Size) rest).map fun cells =>
      .plain '\\' :: .plain c :: cells
  | .sheet, offset, '/' :: '*' :: rest =>
    (maskFrom (.comment offset) (offset + 2) rest).map fun cells =>
      .blank '/' :: .blank '*' :: cells
  | .sheet, offset, c :: rest =>
    let mode := if c = '"' ∨ c = '\'' then .string offset c else .sheet
    (maskFrom mode (offset + c.utf8Size) rest).map (.plain c :: ·)
  | .comment _, offset, '*' :: '/' :: rest =>
    (maskFrom .sheet (offset + 2) rest).map fun cells => .blank '*' :: .blank '/' :: cells
  | .comment start, offset, c :: rest =>
    (maskFrom (.comment start) (offset + c.utf8Size) rest).map (.blank c :: ·)
  | .string start quote, offset, '\\' :: c :: rest =>
    (maskFrom (.string start quote) (offset + 1 + c.utf8Size) rest).map fun cells =>
      .struck '\\' :: .struck c :: cells
  | .string start quote, offset, c :: rest =>
    if c = '\n' then .error (.unterminatedString start)
    else if c = quote then (maskFrom .sheet (offset + c.utf8Size) rest).map (.plain c :: ·)
    else (maskFrom (.string start quote) (offset + c.utf8Size) rest).map (.struck c :: ·)

/-- Masks a style sheet. -/
def mask (css : Text) : Except Fault (List Cell) :=
  maskFrom .sheet 0 css

/-- The text of a masked style sheet. -/
def maskedText (css : Text) : Except Fault Text :=
  (mask css).map render

end ClassAudit.Css
