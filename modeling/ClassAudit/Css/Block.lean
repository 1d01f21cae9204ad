import ClassAudit.Css.Mask
/-!
# Braces of a style sheet

A masked style sheet is a tree: what stands before an opening brace, the block it opens, and what
follows the brace that closes it. Every sheet whose braces are balanced has one such tree.
-/

namespace ClassAudit.Css

/-- Looks for a brace without a partner, given the offsets of the braces open, the innermost first:
the first closing brace that has none, or else the last opening one. -/
def matchBraces : (opened : List Nat) → (offset : Nat) → List Cell → Except Fault Unit
  | [], _, [] => .ok ()
  | innermost :: _, _, [] => .error (.unbalancedBrace innermost)
  | opened, offset, cell :: rest =>
    let next := offset + cell.source.utf8Size
    if cell.shown = '{' then matchBraces (offset :: opened) next rest
    else if cell.shown = '}' then
      match opened with
      | _ :: outer => matchBraces outer next rest
      | [] => .error (.unbalancedBrace offset)
    else matchBraces opened next rest

/-- The content of a style sheet or of a pair of braces. -/
inductive Block where
  /-- The cells after the last closing brace. -/
  | done (tail : List Cell)
  /-- The cells before an opening brace, what that brace encloses, and what follows. -/
  | rule (front : List Cell) (body next : Block)

namespace Block

/-- The block with a cell in front. -/
def push (cell : Cell) : Block → Block
  | done tail => done (cell :: tail)
  | rule front body next => rule (cell :: front) body next

/-- A sheet read from its end: the block being read and those that follow the braces which enclose
it, the innermost first. -/
structure Suffix where
  block : Block
  outer : List Block

/-- One more cell in front of what is read. A brace that has no partner encloses the rest. -/
def Suffix.push (cell : Cell) (suffix : Suffix) : Suffix :=
  if cell.shown = '}' then ⟨done [], suffix.block :: suffix.outer⟩
  else if cell.shown = '{' then
    match suffix.outer with
    | next :: outer => ⟨rule [] suffix.block next, outer⟩
    | [] => ⟨rule [] suffix.block (done []), []⟩
  else ⟨suffix.block.push cell, suffix.outer⟩

/-- The tree of a masked style sheet with balanced braces. -/
def ofCells (cells : List Cell) : Block :=
  (cells.foldr Suffix.push ⟨done [], []⟩).block

end Block

end ClassAudit.Css
