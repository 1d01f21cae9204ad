import ClassAudit.Css.Stylesheet
import ClassAudit.Proofs.Css.Braces
import ClassAudit.Proofs.Css.MaskSteps
import Mathlib.Data.List.TakeWhile
/-!
# Sheets without quotes, escapes and comments

Such a sheet is its own masked text, one plain cell for each character.  This
module says so, and reads the headers of plain cells: what stands before the
last semicolon and the blanks around a header do not count.
-/

namespace ClassAudit.Css

/-- A text without quotes, backslashes and openings of comments. -/
structure Plain (text : Text) : Prop where
  literal : ∀ c ∈ text, c ≠ '"' ∧ c ≠ '\'' ∧ c ≠ '\\'
  uncommented : text.includes ['/', '*'] = false

instance (text : Text) : Decidable (Plain text) :=
  decidable_of_iff ((∀ c ∈ text, c ≠ '"' ∧ c ≠ '\'' ∧ c ≠ '\\') ∧ text.includes ['/', '*'] = false)
    ⟨fun h => ⟨h.1, h.2⟩, fun h => ⟨h.literal, h.uncommented⟩⟩

/-- The characters that may start a string, an escape or a comment. -/
def maskedStarts : List Char := ['"', '\'', '\\', '/']

/-- The characters that structure a sheet. -/
def blockMarks : List Char := ['{', '}', ';']

theorem includes_comment_cons (c : Char) (rest : Text) :
    Text.includes (c :: rest) ['/', '*'] =
      (decide (c = '/' ∧ rest.head? = some '*') || rest.includes ['/', '*']) := by
  unfold Text.includes
  rw [Text.breakOn?]
  by_cases hc : c = '/'
  · subst hc
    cases rest with
    | nil => rfl
    | cons d rest =>
      by_cases hd : d = '*'
      · simp [Text.after?, hd]
      · simp [Text.after?, hd, Ne.symm hd]
  · simp [Text.after?, hc, Ne.symm hc]

/-- A comment opens across a seam only before a star. -/
theorem includes_comment_append {front rest : Text} (hfront : front.includes ['/', '*'] = false)
    (hrest : rest.includes ['/', '*'] = false) (hseam : rest.head? ≠ some '*') :
    (front ++ rest).includes ['/', '*'] = false := by
  induction front with
  | nil => exact hrest
  | cons c front ih =>
    rw [includes_comment_cons, Bool.or_eq_false_iff] at hfront
    rw [List.cons_append, includes_comment_cons, ih hfront.2, Bool.or_false]
    cases front with
    | nil => simp [hseam]
    | cons d front => exact hfront.1

namespace Plain

theorem nil : Plain [] where
  literal := by simp
  uncommented := rfl

theorem cons {c : Char} {rest : Text} (hc : c ∉ maskedStarts) (hrest : Plain rest) :
    Plain (c :: rest) where
  literal := by
    intro d hd
    rcases List.mem_cons.1 hd with rfl | hd
    · simp only [maskedStarts, List.mem_cons, not_or] at hc
      exact ⟨hc.1, hc.2.1, hc.2.2.1⟩
    · exact hrest.literal d hd
  uncommented := by
    have hslash : c ≠ '/' := fun hslash => hc (by rw [hslash]; decide)
    rw [includes_comment_cons, hrest.uncommented]
    simp [hslash]

theorem tail {c : Char} {rest : Text} (h : Plain (c :: rest)) : Plain rest where
  literal := fun d hd => h.literal d (List.mem_cons_of_mem c hd)
  uncommented := by
    have huncommented := h.uncommented
    rw [includes_comment_cons, Bool.or_eq_false_iff] at huncommented
    exact huncommented.2

theorem append {front rest : Text} (hfront : Plain front) (hrest : Plain rest)
    (hseam : rest.head? ≠ some '*') : Plain (front ++ rest) where
  literal := by
    intro c hc
    rcases List.mem_append.1 hc with hc | hc
    · exact hfront.literal c hc
    · exact hrest.literal c hc
  uncommented := includes_comment_append hfront.uncommented hrest.uncommented hseam

theorem append_of_unmasked {front rest : Text} (hfront : ∀ c ∈ front, c ∉ maskedStarts)
    (hrest : Plain rest) : Plain (front ++ rest) := by
  induction front with
  | nil => exact hrest
  | cons c front ih =>
    exact cons (hfront c (by simp)) (ih fun d hd => hfront d (by simp [hd]))

end Plain

/-! ## Plain cells -/

/-- Cells that show their source. -/
def plainCells (text : Text) : List Cell :=
  text.map .plain

@[simp] theorem plainCells_append (front rest : Text) :
    plainCells (front ++ rest) = plainCells front ++ plainCells rest :=
  List.map_append

@[simp] theorem plainCells_cons (c : Char) (rest : Text) :
    plainCells (c :: rest) = .plain c :: plainCells rest := rfl

theorem mem_plainCells {text : Text} {cell : Cell} :
    cell ∈ plainCells text ↔ ∃ c ∈ text, Cell.plain c = cell :=
  List.mem_map

@[simp] theorem shown_plainCells (text : Text) : (plainCells text).map Cell.shown = text := by
  unfold plainCells
  rw [List.map_map]
  exact List.map_id text

@[simp] theorem sourceOf_plainCells (text : Text) : sourceOf (plainCells text) = text := by
  unfold sourceOf plainCells
  rw [List.map_map]
  exact List.map_id text

@[simp] theorem render_plainCells (text : Text) : render (plainCells text) = text := by
  induction text with
  | nil => rfl
  | cons c rest ih =>
    rw [plainCells_cons, render, List.flatMap_cons, ← render, ih]
    unfold Cell.render
    by_cases hc : c = ' '
    · subst hc
      rfl
    · rw [if_neg (show (Cell.plain c).shown ≠ ' ' from hc)]
      rfl

theorem balanced_plainCells {text : Text} (h : Balanced id text) :
    Balanced Cell.shown (plainCells text) :=
  Balanced.map h

theorem masks_plain {text : Text} (h : Plain text) (offset : Nat) :
    Masks .sheet offset text (plainCells text) := by
  induction text generalizing offset with
  | nil => exact .done offset
  | cons c rest ih =>
    obtain ⟨hdouble, hsingle, hescape⟩ := h.literal c List.mem_cons_self
    have hcomment : c = '/' → rest.head? ≠ some '*' := by
      intro hslash hstar
      have huncommented := h.uncommented
      rw [includes_comment_cons] at huncommented
      simp [hslash, hstar] at huncommented
    have hstep : MaskStep .sheet offset [c] rest [.plain c] .sheet :=
      .plain c (not_or.2 ⟨hdouble, hsingle⟩) (fun hc => absurd hc hescape) hcomment
    exact .step hstep (ih h.tail _)

theorem maskFrom_plain {text : Text} (h : Plain text) (offset : Nat) :
    maskFrom .sheet offset text = .ok (plainCells text) :=
  masks_iff.1 (masks_plain h offset)

theorem mask_plain {text : Text} (h : Plain text) : mask text = .ok (plainCells text) :=
  maskFrom_plain h 0

/-! ## Headers -/

namespace Header

theorem ofFront_congr {front other : List Cell} (h : cellsOf front = cellsOf other) :
    ofFront front = ofFront other := by
  unfold ofFront
  rw [h]

theorem ofFront_append_semicolon (front rest : List Cell) {semicolon : Cell}
    (h : semicolon.shown = ';') :
    ofFront (front ++ semicolon :: rest) = ofFront rest := by
  apply ofFront_congr
  unfold cellsOf
  rw [List.reverse_append, List.reverse_cons, List.append_assoc, List.singleton_append,
    List.takeWhile_append]
  split
  · rename_i hlength
    have hself := (List.takeWhile_prefix _).eq_of_length hlength
    rw [List.takeWhile_cons_of_neg (by simp [h]), List.append_nil, hself]
  · rfl

theorem ofFront_blanks_append {blanks : List Cell} (h : ∀ cell ∈ blanks, Text.isBlank cell.shown)
    (rest : List Cell) : ofFront (blanks ++ rest) = ofFront rest := by
  apply ofFront_congr
  have hall : blanks.reverse.takeWhile (fun cell => cell.shown ≠ ';') = blanks.reverse := by
    rw [List.takeWhile_eq_self_iff]
    intro cell hcell
    have hblank := h cell (List.mem_reverse.1 hcell)
    refine decide_eq_true ?_
    intro hsemicolon
    rw [hsemicolon] at hblank
    exact absurd hblank (by decide)
  unfold cellsOf
  rw [List.reverse_append, List.takeWhile_append, hall]
  split
  · rename_i hlength
    have hself := (List.takeWhile_prefix _).eq_of_length hlength
    rw [List.reverse_append, List.reverse_reverse, List.dropWhile_append_of_pos h, hself]
  · rfl

theorem cellsOf_of_unbroken {header : List Cell} (h : ∀ cell ∈ header, cell.shown ≠ ';') :
    cellsOf header = header.dropWhile fun cell => Text.isBlank cell.shown := by
  have hall : header.reverse.takeWhile (fun cell => cell.shown ≠ ';') = header.reverse := by
    rw [List.takeWhile_eq_self_iff]
    intro cell hcell
    exact decide_eq_true (h cell (List.mem_reverse.1 hcell))
  unfold cellsOf
  rw [hall, List.reverse_reverse]

/-- A header without semicolons and without a blank in front is read as it stands. -/
theorem cellsOf_plainCells {text : Text} (hsemicolon : ';' ∉ text)
    (hstart : text.startsBlank = false) : cellsOf (plainCells text) = plainCells text := by
  rw [cellsOf_of_unbroken]
  · cases text with
    | nil => rfl
    | cons c rest =>
      have hc : Text.isBlank c = false := by simpa [Text.startsBlank] using hstart
      rw [plainCells_cons, List.dropWhile_cons_of_neg (by simp [Cell.plain, hc])]
  · intro cell hcell
    obtain ⟨c, hc, rfl⟩ := mem_plainCells.1 hcell
    rintro rfl
    exact hsemicolon hc

/-- The text up to a blank or an opening parenthesis. -/
def firstWord (text : Text) : Text :=
  text.takeWhile fun c => !endsWord c

theorem endsWord_of_isBlank {c : Char} (h : Text.isBlank c) : endsWord c := by
  unfold endsWord
  rw [h]
  rfl

theorem head?_firstWord_iff {text : Text} :
    (firstWord text).head? = some '@' ↔ text.head? = some '@' := by
  cases text with
  | nil => rfl
  | cons c rest =>
    unfold firstWord
    cases hc : endsWord c with
    | true =>
      rw [List.takeWhile_cons_of_neg (by simp [hc])]
      refine iff_of_false (by simp) fun h => ?_
      rw [Option.some.inj h] at hc
      exact absurd hc (by decide)
    | false =>
      rw [List.takeWhile_cons_of_pos (by simp [hc])]
      rfl

theorem firstWord_append_blanks (text : Text) {blanks : Text}
    (h : ∀ c ∈ blanks, Text.isBlank c) : firstWord (text ++ blanks) = firstWord text := by
  have hnone : firstWord blanks = [] := by
    cases blanks with
    | nil => rfl
    | cons c rest =>
      have hc := endsWord_of_isBlank (h c (by simp))
      exact List.takeWhile_cons_of_neg (by simp [hc])
  unfold firstWord at hnone ⊢
  rw [List.takeWhile_append, hnone, List.append_nil]
  split
  · rename_i hlength
    exact ((List.takeWhile_prefix _).eq_of_length hlength).symm
  · rfl

theorem ofFront_plainCells {text : Text} (hsemicolon : ';' ∉ text)
    (hstart : text.startsBlank = false) :
    ofFront (plainCells text) =
      if (firstWord text).head? = some '@' then
        if keyframesWords.contains (firstWord text) then
          .keyframes (keyframesName (text.drop (firstWord text).length))
        else .grouping
      else .selectors (Text.trim text) := by
  have hdrop : sourceOf ((plainCells text).drop (firstWord text).length) =
      text.drop (firstWord text).length := by
    unfold plainCells
    rw [← List.map_drop]
    exact sourceOf_plainCells _
  unfold firstWord at hdrop ⊢
  unfold ofFront
  simp only [cellsOf_plainCells hsemicolon hstart, shown_plainCells, render_plainCells, hdrop]

end Header

/-- What stands in front of a block does not count if it changes no header. -/
theorem Block.findings_prepend {front : List Cell}
    (h : ∀ rest, Header.ofFront (front ++ rest) = Header.ofFront rest) (block : Block) :
    (block.prepend front).findings = block.findings := by
  cases block with
  | done tail => rw [prepend_done, findings, findings]
  | rule header body next => rw [prepend_rule, findings, findings, h]

end ClassAudit.Css
