import ClassAudit.Proofs.Css.PlainSheet
/-!
# Lexemes of a style sheet

A sheet is a sequence of single characters, comments and strings.  The reader of
lexemes goes along the steps of the masker, so where a sheet can be masked its
cells are those of its lexemes one after the other.  Its source and its masked
text are read off either.
-/

namespace ClassAudit.Css

/-- A piece of a style sheet that is masked as a whole. -/
inductive Lexeme where
  | char (c : Char)
  | comment (content : Text)
  | string (quote : Char) (content : Text)
  deriving DecidableEq

/-- What a text continues. -/
inductive Ink where
  | code
  | comment
  | string (quote : Char)

/-- The rest of the comment or string that a text continues, and the lexemes behind it. -/
def lexemesFrom : Ink → Text → Text × List Lexeme
  | _, [] => ([], [])
  | .code, '\\' :: c :: rest => ([], .char '\\' :: .char c :: (lexemesFrom .code rest).2)
  | .code, '/' :: '*' :: rest =>
    ([], .comment (lexemesFrom .comment rest).1 :: (lexemesFrom .comment rest).2)
  | .code, c :: rest =>
    if c = '"' ∨ c = '\'' then
      ([], .string c (lexemesFrom (.string c) rest).1 :: (lexemesFrom (.string c) rest).2)
    else ([], .char c :: (lexemesFrom .code rest).2)
  | .comment, '*' :: '/' :: rest => ([], (lexemesFrom .code rest).2)
  | .comment, c :: rest => (c :: (lexemesFrom .comment rest).1, (lexemesFrom .comment rest).2)
  | .string quote, '\\' :: c :: rest =>
    ('\\' :: c :: (lexemesFrom (.string quote) rest).1, (lexemesFrom (.string quote) rest).2)
  | .string quote, c :: rest =>
    if c = quote then ([], (lexemesFrom .code rest).2)
    else (c :: (lexemesFrom (.string quote) rest).1, (lexemesFrom (.string quote) rest).2)

/-- The lexemes of a style sheet. -/
def lexemes (css : Text) : List Lexeme :=
  (lexemesFrom .code css).2

example : lexemes "a\\\"/*\"*/'/*'".toList =
    [.char 'a', .char '\\', .char '"', .comment ['"'], .string '\'' ['/', '*']] := by decide

/-- A blank for each byte. -/
def blanked (text : Text) : Text :=
  text.flatMap fun c => List.replicate c.utf8Size ' '

def struckChar (c : Char) : Char :=
  if Text.isAscii c then '_' else c

theorem struckChar_ne {c d : Char} (hd : Text.isAscii d = true ∧ d ≠ '_') : struckChar c ≠ d := by
  unfold struckChar
  split
  · exact hd.2.symm
  · rename_i hwide
    rintro rfl
    exact hwide hd.1

namespace Lexeme

def source : Lexeme → Text
  | char c => [c]
  | comment content => '/' :: '*' :: (content ++ ['*', '/'])
  | string quote content => quote :: (content ++ [quote])

def masked : Lexeme → Text
  | char c => [c]
  | comment content => blanked ('/' :: '*' :: (content ++ ['*', '/']))
  | string quote content => quote :: (content.map struckChar ++ [quote])

def isChar : Lexeme → Bool
  | char _ => true
  | _ => false

theorem exists_of_isChar {lexeme : Lexeme} (h : lexeme.isChar = true) : ∃ c, lexeme = char c := by
  cases lexeme with
  | char c => exact ⟨c, rfl⟩
  | comment content => cases h
  | string quote content => cases h

def isComment : Lexeme → Bool
  | comment _ => true
  | _ => false

/-- Whether a lexeme separates two words only. -/
def isGap : Lexeme → Bool
  | char c => Text.isBlank c
  | comment _ => true
  | string _ _ => false

/-- A comment or string that does not upset a reader of blocks. -/
def Quiet : Lexeme → Prop
  | char _ => True
  | comment content => ∀ c ∈ content, c ∉ blockMarks
  | string _ content => (∀ c ∈ content, c ∉ blockMarks) ∧ content.includes ['/', '*'] = false

instance : DecidablePred Quiet
  | char _ => inferInstanceAs (Decidable True)
  | comment content => inferInstanceAs (Decidable (∀ c ∈ content, c ∉ blockMarks))
  | string _ content => inferInstanceAs (Decidable ((∀ c ∈ content, c ∉ blockMarks) ∧ _))

end Lexeme

/-- The first end of a comment behind this text is its own. -/
def IsCommentBody (content : Text) : Prop :=
  ∀ front back, content ++ ['*', '/'] = front ++ '*' :: '/' :: back → back = []

/-- The texts between quotes: a backslash takes the next character with it. -/
inductive IsStringBody (quote : Char) : Text → Prop where
  | nil : IsStringBody quote []
  | escape (c : Char) {rest : Text} (h : IsStringBody quote rest) :
      IsStringBody quote ('\\' :: c :: rest)
  | other {c : Char} {rest : Text} (hescape : c ≠ '\\') (hquote : c ≠ quote)
      (h : IsStringBody quote rest) : IsStringBody quote (c :: rest)

def Lexeme.WellFormed : Lexeme → Prop
  | char _ => True
  | comment content => IsCommentBody content
  | string quote content => (quote = '"' ∨ quote = '\'') ∧ IsStringBody quote content

theorem IsCommentBody.nil : IsCommentBody [] := by
  intro front back h
  match front with
  | [] => simpa using h.symm
  | [c] => simp at h
  | c :: d :: front => simp at h

theorem IsCommentBody.cons {c : Char} {rest : Text}
    (hfirst : ∀ later, c = '*' → rest ++ ['*', '/'] = '/' :: later → False)
    (h : IsCommentBody rest) : IsCommentBody (c :: rest) := by
  intro front back hsplit
  cases front with
  | nil =>
    obtain ⟨hc, hrest⟩ := List.cons.inj hsplit
    exact absurd hrest (hfirst back hc)
  | cons d front => exact h front back (List.cons.inj hsplit).2

theorem IsCommentBody.tail {c : Char} {rest : Text} (h : IsCommentBody (c :: rest)) :
    IsCommentBody rest := by
  intro front back hsplit
  exact h (c :: front) back (by rw [List.cons_append, hsplit]; rfl)

/-- A star in a comment is not followed by a slash, the end of the comment apart. -/
theorem IsCommentBody.seam {rest : Text} (h : IsCommentBody ('*' :: rest)) :
    rest.head? ≠ some '/' := by
  intro hslash
  obtain ⟨later, rfl⟩ := List.head?_eq_some_iff.1 hslash
  have hback := h [] (later ++ ['*', '/']) (by simp)
  exact absurd hback (by simp)

theorem breakOn?_commentBody {content : Text} (h : IsCommentBody content) (rest : Text) :
    Text.breakOn? (content ++ '*' :: '/' :: rest) ['*', '/'] = some (content, rest) := by
  induction content with
  | nil => simp [Text.breakOn?, Text.after?]
  | cons c content ih =>
    have hnone : Text.after? (c :: (content ++ '*' :: '/' :: rest)) ['*', '/'] = none := by
      rw [Option.eq_none_iff_forall_ne_some]
      intro later hlater
      obtain ⟨rfl, hcontent⟩ := List.cons.inj (Text.after?_eq_some_iff.1 hlater)
      apply h.seam
      cases content with
      | nil => exact absurd (List.cons.inj hcontent).1 (by decide)
      | cons d content => rw [(List.cons.inj hcontent).1]; rfl
    rw [List.cons_append, Text.breakOn?, hnone, ih h.tail]
    rfl

/-! ## The cells of lexemes -/

theorem render_cons (cell : Cell) (cells : List Cell) :
    render (cell :: cells) = cell.render ++ render cells := rfl

theorem render_append (front rest : List Cell) :
    render (front ++ rest) = render front ++ render rest :=
  List.flatMap_append

theorem render_plain (c : Char) : (Cell.plain c).render = [c] := by
  have hcells := render_plainCells [c]
  rw [plainCells_cons, render_cons] at hcells
  exact (List.append_nil _).symm.trans hcells

theorem render_struck (c : Char) : (Cell.struck c).render = [struckChar c] :=
  if_neg (show struckChar c ≠ ' ' from struckChar_ne (by decide))

theorem render_map_struck (text : Text) : render (text.map .struck) = text.map struckChar := by
  induction text with
  | nil => rfl
  | cons c text ih =>
    rw [List.map_cons, render_cons, render_struck, ih]
    rfl

theorem render_map_blank (text : Text) : render (text.map .blank) = blanked text :=
  List.flatMap_map ..

namespace Lexeme

/-- The cells of a lexeme. -/
def cells : Lexeme → List Cell
  | char c => [.plain c]
  | comment content => ('/' :: '*' :: (content ++ ['*', '/'])).map .blank
  | string quote content => .plain quote :: (content.map .struck ++ [.plain quote])

theorem sourceOf_cells (lexeme : Lexeme) : sourceOf lexeme.cells = lexeme.source := by
  cases lexeme with
  | char c => rfl
  | comment content => simp [cells, source, sourceOf, Cell.blank, Function.comp_def]
  | string quote content =>
    simp [cells, source, sourceOf, Cell.plain, Cell.struck, Function.comp_def]

theorem render_cells (lexeme : Lexeme) : render lexeme.cells = lexeme.masked := by
  cases lexeme with
  | char c =>
    rw [cells, render_cons, render_plain]
    rfl
  | comment content => exact render_map_blank _
  | string quote content =>
    rw [cells, render_cons, render_append, render_map_struck, render_cons, render_plain]
    rfl

end Lexeme

theorem sourceOf_lexemes (list : List Lexeme) :
    sourceOf (list.flatMap Lexeme.cells) = list.flatMap Lexeme.source := by
  unfold sourceOf
  rw [List.map_flatMap]
  exact congrArg (list.flatMap ·) (funext Lexeme.sourceOf_cells)

theorem render_lexemes (list : List Lexeme) :
    render (list.flatMap Lexeme.cells) = list.flatMap Lexeme.masked := by
  unfold render
  rw [List.flatMap_assoc]
  exact congrArg (list.flatMap ·) (funext Lexeme.render_cells)

/-! ## Lexemes along the steps of the masker -/

def MaskMode.ink : MaskMode → Ink
  | .sheet => .code
  | .comment _ => .comment
  | .string _ quote => .string quote

namespace Ink

/-- The rest of a comment or string and the lexemes behind it, with what a step reads in front. -/
def push : Ink → Text → Ink → Text × List Lexeme → Text × List Lexeme
  | code, read, code, parts => ([], read.map .char ++ parts.2)
  | code, _, comment, parts => ([], .comment parts.1 :: parts.2)
  | code, _, string quote, parts => ([], .string quote parts.1 :: parts.2)
  | _, _, code, parts => ([], parts.2)
  | _, read, _, parts => (read ++ parts.1, parts.2)

/-- The cells of the rest of a comment or string and of the lexemes behind it. -/
def cells (ink : Ink) (parts : Text × List Lexeme) : List Cell :=
  (match ink with
    | code => []
    | comment => (parts.1 ++ ['*', '/']).map .blank
    | string quote => parts.1.map .struck ++ [.plain quote]) ++ parts.2.flatMap Lexeme.cells

/-- The rest of a comment or string, and the lexemes behind it, are well formed. -/
def Formed (ink : Ink) (parts : Text × List Lexeme) : Prop :=
  (match ink with
    | code => parts.1 = []
    | comment => IsCommentBody parts.1
    | string quote => (quote = '"' ∨ quote = '\'') ∧ IsStringBody quote parts.1) ∧
  ∀ lexeme ∈ parts.2, lexeme.WellFormed

end Ink

namespace MaskStep

variable {mode next : MaskMode} {offset : Nat} {read rest : Text} {cells : List Cell}
  {parts : Text × List Lexeme}

theorem lexemesFrom_eq (h : MaskStep mode offset read rest cells next) :
    lexemesFrom mode.ink (read ++ rest) =
      mode.ink.push read next.ink (lexemesFrom next.ink rest) := by
  cases h with
  | escape | openComment | closeComment | escapeInString => rfl
  | openString quote hquote =>
    show lexemesFrom .code (quote :: rest) = _
    rw [lexemesFrom, if_pos hquote]
    · rfl
    · rintro _ _ rfl
      exact absurd hquote (by decide)
    · rintro _ rfl
      exact absurd hquote (by decide)
  | plain c hquote hescape hcomment =>
    show lexemesFrom .code (c :: rest) = _
    rw [lexemesFrom, if_neg hquote]
    · rfl
    · rintro d later hc rfl
      cases hescape hc
    · rintro later hc rfl
      exact hcomment hc rfl
  | comment c hend =>
    show lexemesFrom .comment (c :: rest) = _
    rw [lexemesFrom]
    · rfl
    · rintro later hc rfl
      exact hend hc rfl
  | closeString quote hescape =>
    show lexemesFrom (.string quote) (quote :: rest) = _
    rw [lexemesFrom, if_pos rfl]
    · rfl
    · rintro d later hc rfl
      cases hescape hc
  | string c hescape hbreak hquote =>
    show lexemesFrom (.string _) (c :: rest) = _
    rw [lexemesFrom, if_neg hquote]
    · rfl
    · rintro d later hc rfl
      cases hescape hc

theorem cells_push (h : MaskStep mode offset read rest cells next) :
    mode.ink.cells (mode.ink.push read next.ink parts) = cells ++ next.ink.cells parts := by
  cases h <;> simp [MaskMode.ink, Ink.push, Ink.cells, Lexeme.cells]

theorem formed_push (h : MaskStep mode offset read rest cells next) (hmode : mode.Quoted)
    (hrest : sourceOf (next.ink.cells parts) = rest) (hparts : next.ink.Formed parts) :
    mode.ink.Formed (mode.ink.push read next.ink parts) := by
  obtain ⟨hends, hformed⟩ := hparts
  cases h with
  | escape =>
    exact ⟨rfl, List.forall_mem_cons.2 ⟨trivial, List.forall_mem_cons.2 ⟨trivial, hformed⟩⟩⟩
  | openComment | openString => exact ⟨rfl, List.forall_mem_cons.2 ⟨hends, hformed⟩⟩
  | plain => exact ⟨rfl, List.forall_mem_cons.2 ⟨trivial, hformed⟩⟩
  | closeComment => exact ⟨.nil, hformed⟩
  | comment c hend =>
    refine ⟨.cons (fun later hc hlater => hend hc ?_) hends, hformed⟩
    rw [← hrest]
    show (sourceOf ((parts.1 ++ ['*', '/']).map .blank ++ _)).head? = _
    have hsource : sourceOf ((parts.1 ++ ['*', '/']).map .blank) = '/' :: later := by
      rw [← hlater]
      simp [sourceOf, Cell.blank, Function.comp_def]
    rw [sourceOf_append, hsource]
    rfl
  | escapeInString c => exact ⟨⟨hends.1, .escape c hends.2⟩, hformed⟩
  | closeString quote => exact ⟨⟨hmode _ quote rfl, .nil⟩, hformed⟩
  | string c hescape hbreak hquote =>
    -- The quote is still to come, so a backslash would take a character with it.
    have hc : c ≠ '\\' := by
      intro hc
      rw [hescape hc] at hrest
      simp [MaskMode.ink, Ink.cells, sourceOf] at hrest
    exact ⟨⟨hends.1, .other hc hquote hends.2⟩, hformed⟩

end MaskStep

namespace Masks

variable {mode : MaskMode} {offset : Nat} {text : Text} {cells : List Cell}

theorem cells_lexemesFrom (h : Masks mode offset text cells) :
    mode.ink.cells (lexemesFrom mode.ink text) = cells := by
  induction h with
  | done => rfl
  | step hstep _ ih => rw [hstep.lexemesFrom_eq, hstep.cells_push, ih]

theorem formed_lexemesFrom (h : Masks mode offset text cells) (hmode : mode.Quoted) :
    mode.ink.Formed (lexemesFrom mode.ink text) := by
  induction h with
  | done => exact ⟨rfl, List.forall_mem_nil _⟩
  | step hstep hrest ih =>
    rw [hstep.lexemesFrom_eq]
    refine hstep.formed_push hmode ?_ (ih (hstep.quoted hmode))
    rw [hrest.cells_lexemesFrom, hrest.sourceOf_cells]

end Masks

/-- The cells of a masked sheet are those of its lexemes. -/
theorem cells_of_mask {css : Text} {cells : List Cell} (h : mask css = .ok cells) :
    cells = (lexemes css).flatMap Lexeme.cells :=
  (masks_iff.2 h).cells_lexemesFrom.symm

/-- The lexemes of a sheet that can be masked give its source and its masked text. -/
theorem lexemes_spec {css shown : Text} (h : maskedText css = .ok shown) :
    (∀ lexeme ∈ lexemes css, lexeme.WellFormed) ∧ css = (lexemes css).flatMap Lexeme.source ∧
      shown = (lexemes css).flatMap Lexeme.masked := by
  obtain ⟨cells, hcells, rfl⟩ := exists_of_map_eq_ok h
  refine ⟨((masks_iff.2 hcells).formed_lexemesFrom MaskMode.quoted_sheet).2, ?_, ?_⟩
  · rw [← sourceOf_lexemes, ← cells_of_mask hcells]
    exact (sourceOf_of_maskFrom hcells).symm
  · rw [← render_lexemes, ← cells_of_mask hcells]

end ClassAudit.Css
