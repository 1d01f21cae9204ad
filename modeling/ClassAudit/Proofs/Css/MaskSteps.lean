import ClassAudit.Css.Mask
import ClassAudit.Proofs.Text.ByteOffsets
/-!
# The steps of the masker

The masker goes through a sheet in steps.  A step reads one character, an escape
with the character it takes along, or one of the two ends of a comment; it gives
the cells of what it reads and the mode in which the rest is read.  What holds of
a masked sheet is shown for one step and then for a run of steps.
-/

namespace ClassAudit.Css

open Text (byteSize)

/-- One step in a mode at an offset: what is read, what follows it, the cells and the next mode. -/
inductive MaskStep : MaskMode → Nat → Text → Text → List Cell → MaskMode → Prop where
  | escape {offset : Nat} (c : Char) {rest : Text} :
      MaskStep .sheet offset ['\\', c] rest [.plain '\\', .plain c] .sheet
  | openComment {offset : Nat} {rest : Text} :
      MaskStep .sheet offset ['/', '*'] rest [.blank '/', .blank '*'] (.comment offset)
  | openString {offset : Nat} (quote : Char) {rest : Text} (hquote : quote = '"' ∨ quote = '\'') :
      MaskStep .sheet offset [quote] rest [.plain quote] (.string offset quote)
  /-- A backslash at the end of the sheet takes nothing along. -/
  | plain {offset : Nat} (c : Char) {rest : Text} (hquote : ¬(c = '"' ∨ c = '\''))
      (hescape : c = '\\' → rest = []) (hcomment : c = '/' → rest.head? ≠ some '*') :
      MaskStep .sheet offset [c] rest [.plain c] .sheet
  | closeComment {start offset : Nat} {rest : Text} :
      MaskStep (.comment start) offset ['*', '/'] rest [.blank '*', .blank '/'] .sheet
  | comment {start offset : Nat} (c : Char) {rest : Text}
      (hend : c = '*' → rest.head? ≠ some '/') :
      MaskStep (.comment start) offset [c] rest [.blank c] (.comment start)
  | escapeInString {start offset : Nat} {quote : Char} (c : Char) {rest : Text} :
      MaskStep (.string start quote) offset ['\\', c] rest [.struck '\\', .struck c]
        (.string start quote)
  | closeString {start offset : Nat} (quote : Char) {rest : Text}
      (hescape : quote = '\\' → rest = []) (hbreak : quote ≠ '\n') :
      MaskStep (.string start quote) offset [quote] rest [.plain quote] .sheet
  | string {start offset : Nat} {quote : Char} (c : Char) {rest : Text}
      (hescape : c = '\\' → rest = []) (hbreak : c ≠ '\n') (hquote : c ≠ quote) :
      MaskStep (.string start quote) offset [c] rest [.struck c] (.string start quote)

/-- Where no step is possible: the sheet or a line ends in a comment or string. -/
inductive MaskStop : MaskMode → Text → Fault → Prop where
  | comment (start : Nat) : MaskStop (.comment start) [] (.unterminatedComment start)
  | string (start : Nat) (quote : Char) :
      MaskStop (.string start quote) [] (.unterminatedString start)
  | lineBreak (start : Nat) (quote : Char) (rest : Text) :
      MaskStop (.string start quote) ('\n' :: rest) (.unterminatedString start)

/-- A run of steps through the whole rest of a sheet. -/
inductive Masks : MaskMode → Nat → Text → List Cell → Prop where
  | done (offset : Nat) : Masks .sheet offset [] []
  | step {mode next : MaskMode} {offset : Nat} {read rest : Text} {cells later : List Cell}
      (hstep : MaskStep mode offset read rest cells next)
      (hrest : Masks next (offset + byteSize read) rest later) :
      Masks mode offset (read ++ rest) (cells ++ later)

/-- A string is closed by the quote that opens it. -/
def MaskMode.Quoted (mode : MaskMode) : Prop :=
  ∀ start quote, mode = .string start quote → quote = '"' ∨ quote = '\''

theorem MaskMode.quoted_sheet : Quoted .sheet := by
  rintro _ _ ⟨⟩

theorem sourceOf_append (front rest : List Cell) :
    sourceOf (front ++ rest) = sourceOf front ++ sourceOf rest :=
  List.map_append

namespace MaskStep

variable {mode next : MaskMode} {offset : Nat} {read rest : Text} {cells : List Cell}

theorem sourceOf_cells (h : MaskStep mode offset read rest cells next) : sourceOf cells = read := by
  cases h <;> rfl

/-- The masker takes the step. -/
theorem maskFrom_eq (h : MaskStep mode offset read rest cells next) :
    maskFrom mode offset (read ++ rest) =
      (maskFrom next (offset + byteSize read) rest).map (cells ++ ·) := by
  cases h with
  | escape c =>
    show maskFrom .sheet offset ('\\' :: c :: rest) = _
    rw [maskFrom, Nat.add_assoc]
    rfl
  | openComment =>
    show maskFrom .sheet offset ('/' :: '*' :: rest) = _
    rw [maskFrom]
    rfl
  | openString quote hquote =>
    show maskFrom .sheet offset (quote :: rest) = _
    rw [maskFrom, if_pos hquote]
    · rfl
    · rintro _ _ rfl
      exact absurd hquote (by decide)
    · rintro _ rfl
      exact absurd hquote (by decide)
  | plain c hquote hescape hcomment =>
    show maskFrom .sheet offset (c :: rest) = _
    rw [maskFrom, if_neg hquote]
    · rfl
    · rintro d later hc rfl
      cases hescape hc
    · rintro later hc rfl
      exact hcomment hc rfl
  | closeComment =>
    show maskFrom _ offset ('*' :: '/' :: rest) = _
    rw [maskFrom]
    rfl
  | comment c hend =>
    show maskFrom _ offset (c :: rest) = _
    rw [maskFrom]
    · rfl
    · rintro later hc rfl
      exact hend hc rfl
  | escapeInString c =>
    show maskFrom _ offset ('\\' :: c :: rest) = _
    rw [maskFrom, Nat.add_assoc]
    rfl
  | closeString quote hescape hbreak =>
    show maskFrom _ offset (quote :: rest) = _
    rw [maskFrom, if_neg hbreak, if_pos rfl]
    · rfl
    · rintro d later hc rfl
      cases hescape hc
  | string c hescape hbreak hquote =>
    show maskFrom _ offset (c :: rest) = _
    rw [maskFrom, if_neg hbreak, if_neg hquote]
    · rfl
    · rintro d later hc rfl
      cases hescape hc

/-- A step is the same before another text, if that has no new mark of comments in front. -/
theorem behind (h : MaskStep mode offset read rest cells next) {other : Text}
    (hnil : rest = [] → other = [])
    (hhead : ∀ c, c = '*' ∨ c = '/' → other.head? = some c → rest.head? = some c) :
    MaskStep mode offset read other cells next := by
  cases h with
  | escape c => exact .escape c
  | openComment => exact .openComment
  | openString quote hquote => exact .openString quote hquote
  | plain c hquote hescape hcomment =>
    exact .plain c hquote (fun hc => hnil (hescape hc))
      fun hc hstar => hcomment hc (hhead '*' (.inl rfl) hstar)
  | closeComment => exact .closeComment
  | comment c hend => exact .comment c fun hc hslash => hend hc (hhead '/' (.inr rfl) hslash)
  | escapeInString c => exact .escapeInString c
  | closeString quote hescape hbreak =>
    exact .closeString quote (fun hc => hnil (hescape hc)) hbreak
  | string c hescape hbreak hquote =>
    exact .string c (fun hc => hnil (hescape hc)) hbreak hquote

theorem quoted (h : MaskStep mode offset read rest cells next) (hmode : mode.Quoted) :
    next.Quoted := by
  cases h with
  | escape | plain | string | comment | escapeInString => exact hmode
  | openComment => rintro _ _ ⟨⟩
  | openString quote hquote =>
    rintro _ _ ⟨⟩
    exact hquote
  | closeComment | closeString => exact MaskMode.quoted_sheet

end MaskStep

theorem MaskStop.maskFrom_eq {mode : MaskMode} {text : Text} {fault : Fault}
    (h : MaskStop mode text fault) (offset : Nat) : maskFrom mode offset text = .error fault := by
  cases h with
  | comment | string => rw [maskFrom]
  | lineBreak start quote rest =>
    rw [maskFrom, if_pos rfl]
    rintro _ _ ⟨⟩

theorem MaskStep.length_lt {mode next : MaskMode} {offset : Nat} {read rest : Text}
    {cells : List Cell} (h : MaskStep mode offset read rest cells next) :
    rest.length < (read ++ rest).length := by
  have hread : read ≠ [] := by
    cases h <;> exact List.cons_ne_nil _ _
  have hpos := List.length_pos_iff.2 hread
  rw [List.length_append]
  omega

/-- The masker is at the end of the sheet, it stops, or it takes a step. -/
theorem exists_maskStep (mode : MaskMode) (offset : Nat) (text : Text) :
    (mode = .sheet ∧ text = []) ∨ (∃ fault, MaskStop mode text fault) ∨
      ∃ read rest cells next, text = read ++ rest ∧
        MaskStep mode offset read rest cells next := by
  cases mode with
  | sheet =>
    cases text with
    | nil => exact .inl ⟨rfl, rfl⟩
    | cons c rest =>
      refine .inr (.inr ?_)
      by_cases hquote : c = '"' ∨ c = '\''
      · exact ⟨[c], rest, _, _, rfl, .openString c hquote⟩
      by_cases hescape : c = '\\' → rest = []
      · by_cases hcomment : c = '/' → rest.head? ≠ some '*'
        · exact ⟨[c], rest, _, _, rfl, .plain c hquote hescape hcomment⟩
        · obtain ⟨rfl, hstar⟩ := Classical.not_imp.1 hcomment
          obtain ⟨later, rfl⟩ := List.head?_eq_some_iff.1 (Decidable.not_not.1 hstar)
          exact ⟨['/', '*'], later, _, _, rfl, .openComment⟩
      · obtain ⟨rfl, hrest⟩ := Classical.not_imp.1 hescape
        obtain ⟨d, later, rfl⟩ := List.exists_cons_of_ne_nil hrest
        exact ⟨['\\', d], later, _, _, rfl, .escape d⟩
  | comment start =>
    cases text with
    | nil => exact .inr (.inl ⟨_, .comment start⟩)
    | cons c rest =>
      refine .inr (.inr ?_)
      by_cases hend : c = '*' → rest.head? ≠ some '/'
      · exact ⟨[c], rest, _, _, rfl, .comment c hend⟩
      · obtain ⟨rfl, hslash⟩ := Classical.not_imp.1 hend
        obtain ⟨later, rfl⟩ := List.head?_eq_some_iff.1 (Decidable.not_not.1 hslash)
        exact ⟨['*', '/'], later, _, _, rfl, .closeComment⟩
  | string start quote =>
    cases text with
    | nil => exact .inr (.inl ⟨_, .string start quote⟩)
    | cons c rest =>
      by_cases hbreak : c = '\n'
      · rw [hbreak]
        exact .inr (.inl ⟨_, .lineBreak start quote rest⟩)
      refine .inr (.inr ?_)
      by_cases hescape : c = '\\' → rest = []
      · by_cases hquote : c = quote
        · subst hquote
          exact ⟨[c], rest, _, _, rfl, .closeString c hescape hbreak⟩
        · exact ⟨[c], rest, _, _, rfl, .string c hescape hbreak hquote⟩
      · obtain ⟨rfl, hrest⟩ := Classical.not_imp.1 hescape
        obtain ⟨d, later, rfl⟩ := List.exists_cons_of_ne_nil hrest
        exact ⟨['\\', d], later, _, _, rfl, .escapeInString d⟩

/-- The masker goes step by step, up to the end of the sheet or to a place where it stops. -/
theorem mask_induction {motive : MaskMode → Nat → Text → Prop}
    (done : ∀ offset, motive .sheet offset [])
    (stop : ∀ {mode text fault} offset, MaskStop mode text fault → motive mode offset text)
    (step : ∀ {mode offset read rest cells next}, MaskStep mode offset read rest cells next →
      motive next (offset + byteSize read) rest → motive mode offset (read ++ rest))
    (mode : MaskMode) (offset : Nat) (text : Text) : motive mode offset text := by
  induction hsize : text.length using Nat.strongRecOn generalizing mode offset text with
  | ind size ih =>
    subst hsize
    obtain ⟨rfl, rfl⟩ | ⟨fault, hstop⟩ | ⟨read, rest, cells, next, rfl, hstep⟩ :=
      exists_maskStep mode offset text
    · exact done offset
    · exact stop offset hstop
    · exact step hstep (ih rest.length hstep.length_lt next _ rest rfl)

theorem exists_of_map_eq_ok {ε α β : Type} {x : Except ε α} {f : α → β} {b : β}
    (h : x.map f = .ok b) : ∃ a, x = .ok a ∧ f a = b := by
  cases x with
  | error fault => cases h
  | ok a => exact ⟨a, rfl, Except.ok.inj h⟩

/-- A sheet that can be masked is gone through in steps. -/
theorem masks_iff {mode : MaskMode} {offset : Nat} {text : Text} {cells : List Cell} :
    Masks mode offset text cells ↔ maskFrom mode offset text = .ok cells := by
  constructor
  · intro h
    induction h with
    | done => rw [maskFrom]
    | step hstep _ ih =>
      rw [hstep.maskFrom_eq, ih]
      rfl
  · induction mode, offset, text using mask_induction generalizing cells with
    | done offset =>
      intro h
      rw [maskFrom] at h
      cases h
      exact .done offset
    | stop offset hstop =>
      intro h
      rw [hstop.maskFrom_eq] at h
      cases h
    | step hstep ih =>
      intro h
      rw [hstep.maskFrom_eq] at h
      obtain ⟨later, hlater, rfl⟩ := exists_of_map_eq_ok h
      exact .step hstep (ih hlater)

namespace Masks

variable {mode : MaskMode} {offset : Nat} {text : Text} {cells : List Cell}

theorem sourceOf_cells (h : Masks mode offset text cells) : sourceOf cells = text := by
  induction h with
  | done => rfl
  | step hstep _ ih => rw [sourceOf_append, hstep.sourceOf_cells, ih]

theorem cells_eq_nil (h : Masks mode offset [] cells) : cells = [] :=
  List.map_eq_nil_iff.1 h.sourceOf_cells

/-- A sheet does not end in a comment or string. -/
theorem text_ne_nil (h : Masks mode offset text cells) (hmode : mode ≠ .sheet) : text ≠ [] := by
  rintro rfl
  have hread := masks_iff.1 h
  cases mode with
  | sheet => exact hmode rfl
  | comment | string =>
    rw [maskFrom] at hread
    cases hread

end Masks

theorem sourceOf_of_maskFrom {mode : MaskMode} {offset : Nat} {text : Text} {cells : List Cell}
    (h : maskFrom mode offset text = .ok cells) : sourceOf cells = text :=
  (masks_iff.2 h).sourceOf_cells

end ClassAudit.Css
