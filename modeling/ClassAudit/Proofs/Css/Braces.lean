import ClassAudit.Css.Block
/-!
# Balanced braces

The words whose braces pair up, and what the two readers of braces do with such
a word in front of anything else: the check passes over it, and the tree of the
whole is put together from the trees of the parts.
-/

namespace ClassAudit.Css

/-- The words whose braces pair up, for symbols that show a character each. -/
inductive Balanced {α : Type} (shown : α → Char) : List α → Prop where
  | nil : Balanced shown []
  | other {symbol : α} {rest : List α} (hopen : shown symbol ≠ '{') (hclose : shown symbol ≠ '}')
      (hrest : Balanced shown rest) : Balanced shown (symbol :: rest)
  | block {opening closing : α} {body rest : List α} (hopen : shown opening = '{')
      (hclose : shown closing = '}') (hbody : Balanced shown body) (hrest : Balanced shown rest) :
      Balanced shown (opening :: body ++ closing :: rest)

namespace Balanced

variable {α β : Type} {shown : α → Char}

theorem append {front rest : List α} (hfront : Balanced shown front)
    (hrest : Balanced shown rest) : Balanced shown (front ++ rest) := by
  induction hfront with
  | nil => exact hrest
  | other hopen hclose _ ih => exact .other hopen hclose ih
  | block hopen hclose hbody _ _ ih =>
    rw [List.append_assoc, List.cons_append]
    exact .block hopen hclose hbody ih

theorem of_braceless {word : List α}
    (h : ∀ symbol ∈ word, shown symbol ≠ '{' ∧ shown symbol ≠ '}') : Balanced shown word := by
  induction word with
  | nil => exact .nil
  | cons symbol rest ih =>
    obtain ⟨hopen, hclose⟩ := h symbol (by simp)
    exact .other hopen hclose (ih fun other hother => h other (by simp [hother]))

theorem map {f : β → α} {word : List β} (h : Balanced (fun b => shown (f b)) word) :
    Balanced shown (word.map f) := by
  induction h with
  | nil => exact .nil
  | other hopen hclose _ ih => exact .other hopen hclose ih
  | block hopen hclose _ _ ihbody ihrest =>
    rw [List.map_append, List.map_cons, List.map_cons]
    exact .block hopen hclose ihbody ihrest

end Balanced

/-! ## The check of braces -/

/-- The bytes of the source of cells. -/
def sourceSize : List Cell → Nat
  | [] => 0
  | cell :: rest => cell.source.utf8Size + sourceSize rest

theorem sourceSize_append (front back : List Cell) :
    sourceSize (front ++ back) = sourceSize front + sourceSize back := by
  induction front with
  | nil => simp [sourceSize]
  | cons cell front ih => rw [List.cons_append, sourceSize, ih, sourceSize, Nat.add_assoc]

theorem matchBraces_cons (opened : List Nat) (offset : Nat) (cell : Cell) (rest : List Cell) :
    matchBraces opened offset (cell :: rest) =
      if cell.shown = '{' then matchBraces (offset :: opened) (offset + cell.source.utf8Size) rest
      else if cell.shown = '}' then
        match opened with
        | _ :: outer => matchBraces outer (offset + cell.source.utf8Size) rest
        | [] => .error (.unbalancedBrace offset)
      else matchBraces opened (offset + cell.source.utf8Size) rest := by
  cases opened with
  | nil => rw [matchBraces]
  | cons innermost outer => rw [matchBraces]

theorem matchBraces_balanced_append {cells : List Cell} (h : Balanced Cell.shown cells)
    (opened : List Nat) (offset : Nat) (rest : List Cell) :
    matchBraces opened offset (cells ++ rest) =
      matchBraces opened (offset + sourceSize cells) rest := by
  induction h generalizing opened offset rest with
  | nil => rfl
  | @other cell tail hopen hclose _ ih =>
    rw [List.cons_append, matchBraces_cons, if_neg hopen, if_neg hclose, ih]
    rw [sourceSize, Nat.add_assoc]
  | @block opening closing body tail hopen hclose _ _ ihbody ihtail =>
    rw [List.append_assoc, List.cons_append, List.cons_append, matchBraces_cons, if_pos hopen,
      ihbody, matchBraces_cons, if_neg (by rw [hclose]; decide), if_pos hclose]
    simp only
    rw [ihtail]
    simp only [sourceSize, sourceSize_append, Nat.add_assoc]

/-- The words that close so many braces beside their own, one after the other. -/
def Closes : Nat → List Cell → Prop
  | 0, word => Balanced Cell.shown word
  | count + 1, word => ∃ body closing rest, word = body ++ closing :: rest ∧
      Balanced Cell.shown body ∧ closing.shown = '}' ∧ Closes count rest

theorem Closes.balanced_append {count : Nat} {front rest : List Cell}
    (hfront : Balanced Cell.shown front) (h : Closes count rest) :
    Closes count (front ++ rest) := by
  cases count with
  | zero => exact hfront.append h
  | succ count =>
    obtain ⟨body, closing, rest, rfl, hbody, hclose, hrest⟩ := h
    refine ⟨front ++ body, closing, rest, ?_, hfront.append hbody, hclose, hrest⟩
    rw [List.append_assoc]

/-- A word that the check accepts closes the braces that were open before it. -/
theorem closes_of_matchBraces {opened : List Nat} {offset : Nat} {cells : List Cell}
    (h : matchBraces opened offset cells = .ok ()) : Closes opened.length cells := by
  induction cells generalizing opened offset with
  | nil =>
    cases opened with
    | nil => exact .nil
    | cons innermost outer => cases h
  | cons cell rest ih =>
    rw [matchBraces_cons] at h
    by_cases hopen : cell.shown = '{'
    · rw [if_pos hopen] at h
      obtain ⟨body, closing, later, rfl, hbody, hclose, hlater⟩ := ih h
      have hblock : Balanced Cell.shown (cell :: body ++ closing :: []) :=
        .block hopen hclose hbody .nil
      have hall := hlater.balanced_append hblock
      rwa [List.append_assoc, List.cons_append, List.singleton_append] at hall
    · rw [if_neg hopen] at h
      by_cases hclose : cell.shown = '}'
      · rw [if_pos hclose] at h
        cases opened with
        | nil => cases h
        | cons innermost outer => exact ⟨[], cell, rest, rfl, .nil, hclose, ih h⟩
      · rw [if_neg hclose] at h
        have hcell : Balanced Cell.shown [cell] := .other hopen hclose .nil
        exact (ih h).balanced_append hcell

/-- The check accepts exactly the balanced words, at any offset. -/
theorem matchBraces_eq_ok_iff {offset : Nat} {cells : List Cell} :
    matchBraces [] offset cells = .ok () ↔ Balanced Cell.shown cells := by
  constructor
  · exact closes_of_matchBraces
  · intro h
    have hall := matchBraces_balanced_append h [] offset []
    rw [List.append_nil] at hall
    rw [hall]
    rfl

theorem matchBraces_balanced {cells : List Cell} (h : Balanced Cell.shown cells) :
    matchBraces [] 0 cells = .ok () :=
  matchBraces_eq_ok_iff.2 h

/-! ## The tree of braces -/

namespace Block

/-- The block with cells in front. -/
def prepend (front : List Cell) (block : Block) : Block :=
  front.foldr push block

@[simp] theorem prepend_done (front tail : List Cell) :
    (done tail).prepend front = done (front ++ tail) := by
  induction front with
  | nil => rfl
  | cons cell front ih => rw [prepend, List.foldr_cons, ← prepend, ih]; rfl

@[simp] theorem prepend_rule (front header : List Cell) (body next : Block) :
    (rule header body next).prepend front = rule (front ++ header) body next := by
  induction front with
  | nil => rfl
  | cons cell front ih => rw [prepend, List.foldr_cons, ← prepend, ih]; rfl

theorem foldr_push_braceless {front : List Cell}
    (h : ∀ cell ∈ front, cell.shown ≠ '{' ∧ cell.shown ≠ '}') (suffix : Suffix) :
    front.foldr Suffix.push suffix = ⟨suffix.block.prepend front, suffix.outer⟩ := by
  induction front with
  | nil => rfl
  | cons cell front ih =>
    obtain ⟨hopen, hclose⟩ := h cell (by simp)
    rw [List.foldr_cons, ih fun other hother => h other (by simp [hother])]
    unfold Suffix.push
    rw [if_neg hclose, if_neg hopen]
    rfl

/-- Cells without braces stand in front of the first block. -/
theorem ofCells_braceless_append {front : List Cell}
    (h : ∀ cell ∈ front, cell.shown ≠ '{' ∧ cell.shown ≠ '}') (cells : List Cell) :
    ofCells (front ++ cells) = (ofCells cells).prepend front := by
  unfold ofCells
  rw [List.foldr_append, foldr_push_braceless h]

private theorem foldr_push_block {opening closing : Cell} (hopen : opening.shown = '{')
    (hclose : closing.shown = '}') {body : List Cell}
    (hbody : ∀ outer, body.foldr Suffix.push ⟨done [], outer⟩ = ⟨ofCells body, outer⟩)
    (cells : List Cell) (suffix : Suffix) :
    (opening :: body ++ closing :: cells).foldr Suffix.push suffix =
      ⟨rule [] (ofCells body) (cells.foldr Suffix.push suffix).block,
        (cells.foldr Suffix.push suffix).outer⟩ := by
  rw [List.foldr_append, List.foldr_cons, List.foldr_cons]
  have hclosed : Suffix.push closing (cells.foldr Suffix.push suffix) =
      ⟨done [], (cells.foldr Suffix.push suffix).block ::
        (cells.foldr Suffix.push suffix).outer⟩ := by
    unfold Suffix.push
    rw [if_pos hclose]
  rw [hclosed, hbody]
  unfold Suffix.push
  rw [if_neg (by rw [hopen]; decide), if_pos hopen]

/-- A balanced word leaves the blocks around it alone. -/
theorem foldr_push_balanced {cells : List Cell} (h : Balanced Cell.shown cells)
    (outer : List Block) :
    cells.foldr Suffix.push ⟨done [], outer⟩ = ⟨ofCells cells, outer⟩ := by
  induction h generalizing outer with
  | nil => rfl
  | @other cell rest hopen hclose _ ih =>
    unfold ofCells
    rw [List.foldr_cons, List.foldr_cons, ih, ih]
    unfold Suffix.push
    rw [if_neg hclose, if_neg hopen, if_neg hclose, if_neg hopen]
  | block hopen hclose _ _ ihbody ihrest =>
    unfold ofCells
    rw [foldr_push_block hopen hclose ihbody, foldr_push_block hopen hclose ihbody, ihrest,
      ihrest]

/-- A pair of braces around a balanced word is a block. -/
theorem ofCells_block {opening closing : Cell} (hopen : opening.shown = '{')
    (hclose : closing.shown = '}') {body : List Cell} (hbody : Balanced Cell.shown body)
    (cells : List Cell) :
    ofCells (opening :: body ++ closing :: cells) = rule [] (ofCells body) (ofCells cells) := by
  have hfold := foldr_push_block hopen hclose (foldr_push_balanced hbody) cells ⟨done [], []⟩
  exact congrArg Suffix.block hfold

end Block

end ClassAudit.Css
