import ClassAudit.Proofs.Theme.LexemeViews
import ClassAudit.Proofs.Theme.LexemeRules
import ClassAudit.Proofs.Theme.ThemeSheet
import Mathlib.Data.List.Induction
/-!
# Declarations over lexemes

The body of a theme rule is cut at the semicolons of its lexemes, and a part of
it makes a token if its name is free of comments and strings and its value is
more than comments and blanks.  In every view of the lexemes the reader of
declarations finds the same tokens, as long as the comments of a declaration
stand before its name or beside its value.
-/

namespace ClassAudit.Theme

open Css

/-! ## Parts of a body -/

/-- The parts of a body between the semicolons outside braces. -/
def splitParts : Nat → List Lexeme → List (List Lexeme)
  | _, [] => [[]]
  | depth, lexeme :: rest =>
    if lexeme = .char ';' ∧ depth = 0 then [] :: splitParts 0 rest
    else
      match splitParts (depthOver depth lexeme) rest with
      | part :: parts => (lexeme :: part) :: parts
      | [] => [[lexeme]]

theorem exists_splitParts (depth : Nat) (list : List Lexeme) :
    ∃ part parts, splitParts depth list = part :: parts := by
  cases list with
  | nil => exact ⟨[], [], rfl⟩
  | cons lexeme rest =>
    rw [splitParts]
    split
    · exact ⟨_, _, rfl⟩
    · split
      · exact ⟨_, _, rfl⟩
      · exact ⟨_, _, rfl⟩

theorem infix_of_mem_splitParts {depth : Nat} {list part : List Lexeme}
    (h : part ∈ splitParts depth list) : part <:+: list := by
  -- The first part is still growing to the left, so the induction keeps it at the head.
  suffices hall : ∀ first parts, splitParts depth list = first :: parts →
      first <+: list ∧ ∀ other ∈ parts, other <:+: list by
    obtain ⟨first, parts, hsplit⟩ := exists_splitParts depth list
    obtain ⟨hfirst, hparts⟩ := hall first parts hsplit
    rw [hsplit] at h
    rcases List.mem_cons.1 h with rfl | h
    · exact hfirst.isInfix
    · exact hparts part h
  clear h
  induction list generalizing depth with
  | nil =>
    intro first parts hsplit
    obtain ⟨rfl, rfl⟩ := List.cons.inj hsplit
    exact ⟨List.prefix_rfl, List.forall_mem_nil _⟩
  | cons lexeme list ih =>
    intro first parts hsplit
    have hgrow : ∀ {other : List Lexeme}, other <:+: list → other <:+: lexeme :: list :=
      fun hother => hother.trans (List.suffix_cons lexeme list).isInfix
    rw [splitParts] at hsplit
    split at hsplit
    · obtain ⟨rfl, rfl⟩ := List.cons.inj hsplit
      obtain ⟨next, others, hnext⟩ := exists_splitParts 0 list
      obtain ⟨hfirst, hothers⟩ := ih next others hnext
      rw [hnext]
      exact ⟨List.nil_prefix, List.forall_mem_cons.2
        ⟨hgrow hfirst.isInfix, fun other hother => hgrow (hothers other hother)⟩⟩
    · obtain ⟨next, others, hnext⟩ := exists_splitParts (depthOver depth lexeme) list
      obtain ⟨hfirst, hothers⟩ := ih next others hnext
      rw [hnext] at hsplit
      obtain ⟨rfl, rfl⟩ := List.cons.inj hsplit
      exact ⟨List.cons_prefix_cons.2 ⟨rfl, hfirst⟩,
        fun other hother => hgrow (hothers other hother)⟩

theorem splitDeclarations_char {depth : Nat} {c : Char} {rest part : Text} {parts : List Text}
    (hc : ¬(c = ';' ∧ depth = 0)) (h : splitDeclarations (depthStep depth c) rest = part :: parts) :
    splitDeclarations depth (c :: rest) = (c :: part) :: parts := by
  unfold depthStep at h
  rw [splitDeclarations, if_neg hc]
  simp only [h]

theorem splitDeclarations_unmarked {depth : Nat} {text rest part : Text} {parts : List Text}
    (htext : ∀ c ∈ text, c ∉ blockMarks) (h : splitDeclarations depth rest = part :: parts) :
    splitDeclarations depth (text ++ rest) = (text ++ part) :: parts := by
  induction text with
  | nil => exact h
  | cons c text ih =>
    have hc := htext c (by simp)
    simp only [blockMarks, List.mem_cons, not_or] at hc
    apply splitDeclarations_char fun hend => hc.2.2.1 hend.1
    rw [depthStep_of_ne hc.1 hc.2.1]
    exact ih fun d hd => htext d (by simp [hd])

/-- In every view a body of quiet lexemes is cut into the same parts. -/
theorem splitDeclarations_view {view : Lexeme → Text} {list : List Lexeme}
    (hview : IsView view list) (hquiet : ∀ lexeme ∈ list, lexeme.Quiet) (depth : Nat) :
    splitDeclarations depth (list.flatMap view) =
      (splitParts depth list).map (·.flatMap view) := by
  induction list generalizing depth with
  | nil => rfl
  | cons lexeme list ih =>
    have hlater := ih hview.tail
      fun other hother => hquiet other (by simp [hother])
    rw [List.flatMap_cons, splitParts]
    by_cases hend : lexeme = .char ';' ∧ depth = 0
    · obtain ⟨rfl, rfl⟩ := hend
      rw [if_pos ⟨rfl, rfl⟩, hview.char, List.map_cons, ← hlater, List.singleton_append,
        splitDeclarations_semicolon]
      rfl
    · obtain ⟨part, parts, hparts⟩ := exists_splitParts (depthOver depth lexeme) list
      have hsplit := hlater (depthOver depth lexeme)
      rw [hparts, List.map_cons] at hsplit
      rw [if_neg hend, hparts, List.map_cons, List.flatMap_cons]
      cases hlexeme : lexeme.isChar with
      | true =>
        obtain ⟨c, rfl⟩ := Lexeme.exists_of_isChar hlexeme
        rw [hview.char]
        apply splitDeclarations_char _ hsplit
        rintro ⟨rfl, hdepth⟩
        exact hend ⟨rfl, hdepth⟩
      | false =>
        have hinert := hview.inert lexeme (by simp) hlexeme (hquiet lexeme (by simp))
        rw [depthOver_of_isChar_eq_false hlexeme] at hsplit
        exact splitDeclarations_unmarked hinert.unmarked hsplit

/-! ## Names and values -/

/-- A part of a body from its first word on. -/
def coreOf (part : List Lexeme) : List Lexeme :=
  part.dropWhile Lexeme.isGap

/-- What a part has before its first colon. -/
def nameOf (part : List Lexeme) : List Lexeme :=
  (coreOf part).takeWhile (· ≠ .char ':')

/-- What a part has behind its first colon. -/
def valueOf (part : List Lexeme) : List Lexeme :=
  ((coreOf part).dropWhile (· ≠ .char ':')).tail

/-- A part whose name holds no comment, and whose value is no comment only. -/
structure Tidy (part : List Lexeme) : Prop where
  name : .char ':' ∈ part → ∀ lexeme ∈ nameOf part, lexeme.isComment = false
  value : (∀ lexeme ∈ valueOf part, lexeme.isGap = true) →
    ∀ lexeme ∈ valueOf part, lexeme.isComment = false

instance (part : List Lexeme) : Decidable (Tidy part) :=
  decidable_of_iff ((.char ':' ∈ part → ∀ lexeme ∈ nameOf part, lexeme.isComment = false) ∧
      ((∀ lexeme ∈ valueOf part, lexeme.isGap = true) →
        ∀ lexeme ∈ valueOf part, lexeme.isComment = false))
    ⟨fun h => ⟨h.1, h.2⟩, fun h => ⟨h.name, h.value⟩⟩

/-- The token that a part of a body makes. -/
def declaredToken? (part : List Lexeme) : Option (TokenKind × Text) :=
  if .char ':' ∈ part ∧ (∀ lexeme ∈ nameOf part, lexeme.isChar = true) ∧
      ¬∀ lexeme ∈ valueOf part, lexeme.isGap = true then
    ThemeTokens.tokenOf? (Text.trim ((nameOf part).flatMap Lexeme.source))
  else none

/-- A way to write lexemes that a reader of declarations cannot tell from any other. -/
structure IsDeclarationView (view : Lexeme → Text) (list : List Lexeme) : Prop where
  char : ∀ c, view (.char c) = [c]
  string : ∀ quote content, .string quote content ∈ list →
    ∃ c rest, view (.string quote content) = c :: rest ∧ (c = '"' ∨ c = '\'')
  comment : ∀ content, .comment content ∈ list → view (.comment content) ≠ [] ∧
    ((∀ c ∈ view (.comment content), Text.isBlank c = true) ∨
      IsCommentBody content ∧ view (.comment content) = (Lexeme.comment content).source)

theorem IsDeclarationView.of_subset {view : Lexeme → Text} {list part : List Lexeme}
    (h : IsDeclarationView view list) (hpart : part ⊆ list) : IsDeclarationView view part where
  char := h.char
  string := fun quote content hmem => h.string quote content (hpart hmem)
  comment := fun content hmem => h.comment content (hpart hmem)

theorem IsDeclarationView.tail {view : Lexeme → Text} {lexeme : Lexeme} {list : List Lexeme}
    (h : IsDeclarationView view (lexeme :: list)) : IsDeclarationView view list :=
  h.of_subset (List.subset_cons_self lexeme list)

theorem isDeclarationView_source {list : List Lexeme}
    (h : ∀ lexeme ∈ list, lexeme.WellFormed) : IsDeclarationView Lexeme.source list where
  char := fun _ => rfl
  string := fun quote _ hmem => ⟨quote, _, rfl, (h _ hmem).1⟩
  comment := fun _ hmem => ⟨List.cons_ne_nil _ _, .inr ⟨h _ hmem, rfl⟩⟩

theorem isDeclarationView_masked {list : List Lexeme}
    (h : ∀ lexeme ∈ list, lexeme.WellFormed) : IsDeclarationView Lexeme.masked list where
  char := fun _ => rfl
  string := fun quote _ hmem => ⟨quote, _, rfl, (h _ hmem).1⟩
  comment := by
    intro content _
    obtain ⟨hne, hblanks⟩ := blanked_spec content
    refine ⟨hne, .inl fun c hc => ?_⟩
    rw [hblanks c hc]
    decide

/-! ## Gaps -/

theorem dropComments_comment {content : Text} (h : IsCommentBody content) (rest : Text) :
    dropComments ((Lexeme.comment content).source ++ rest) =
      dropComments (Text.trimStart rest) := by
  have hbreak := breakOn?_commentBody h rest
  have hsource : (Lexeme.comment content).source ++ rest =
      '/' :: '*' :: (content ++ '*' :: '/' :: rest) := by simp [Lexeme.source]
  rw [hsource, dropComments]
  split
  · rename_i hsome
    rw [hbreak] at hsome
    cases hsome
    rfl
  · rename_i hnone
    rw [hbreak] at hnone
    cases hnone

section Gaps

variable {view : Lexeme → Text} {gaps : List Lexeme}

/-- The view of a gap is blank, or it is the source of a comment. -/
theorem IsDeclarationView.gap {lexeme : Lexeme} (hview : IsDeclarationView view (lexeme :: gaps))
    (hgap : lexeme.isGap = true) :
    (∀ c ∈ view lexeme, Text.isBlank c = true) ∨
      ∃ content, IsCommentBody content ∧ view lexeme = (Lexeme.comment content).source := by
  cases lexeme with
  | char c =>
    rw [hview.char]
    exact .inl (List.forall_mem_singleton.2 hgap)
  | comment content =>
    exact (hview.comment content (by simp)).2.imp id fun hsource => ⟨content, hsource⟩
  | string quote content => cases hgap

theorem dropComments_gaps (hview : IsDeclarationView view gaps)
    (hgaps : ∀ lexeme ∈ gaps, lexeme.isGap = true) (rest : Text) :
    dropComments (Text.trimStart (gaps.flatMap view ++ rest)) =
      dropComments (Text.trimStart rest) := by
  induction gaps with
  | nil => rfl
  | cons lexeme gaps ih =>
    have hlater := ih hview.tail
      fun other hother => hgaps other (by simp [hother])
    rw [List.flatMap_cons, List.append_assoc, ← hlater]
    rcases hview.gap (hgaps lexeme (by simp)) with hblank | ⟨content, hcontent, hsource⟩
    · unfold Text.trimStart
      rw [List.dropWhile_append_of_pos hblank]
    · rw [hsource]
      exact dropComments_comment hcontent _

theorem dropComments_nil : dropComments [] = [] :=
  dropComments_of_head (by simp)

theorem dropComments_trim_gaps (hview : IsDeclarationView view gaps)
    (hgaps : ∀ lexeme ∈ gaps, lexeme.isGap = true) :
    dropComments (Text.trim (gaps.flatMap view)) = [] := by
  induction gaps using List.reverseRecOn with
  | nil => exact dropComments_nil
  | append_singleton gaps lexeme ih =>
    have hlast : IsDeclarationView view [lexeme] := hview.of_subset (by simp)
    have hsplit : (gaps ++ [lexeme]).flatMap view = gaps.flatMap view ++ view lexeme := by simp
    rcases hlast.gap (hgaps lexeme (by simp)) with hblank | ⟨content, -, hsource⟩
    · rw [hsplit, Text.trim_append_blanks _ hblank]
      exact ih (hview.of_subset (by simp)) fun other hother => hgaps other (by simp [hother])
    · have hend : Text.endsBlank ((gaps ++ [lexeme]).flatMap view) = false := by
        have hslash : Text.endsBlank ['/'] = false := by decide
        have hcontent : gaps.flatMap view ++ (Lexeme.comment content).source =
            (gaps.flatMap view ++ '/' :: '*' :: (content ++ ['*'])) ++ ['/'] := by
          simp [Lexeme.source]
        rw [hsplit, hsource, hcontent]
        exact Text.endsBlank_append (by simp) hslash _
      have hclear := dropComments_gaps hview hgaps []
      rw [List.append_nil] at hclear
      rw [Text.trim_of_endsBlank hend, hclear]
      exact dropComments_nil

end Gaps

/-! ## Tokens -/

/-- The characters that no token has, and that start a comment or string. -/
def foulMarks : List Char := ['"', '\'', '/']

theorem tokenOf?_of_foul {property : Text} {c : Char} (hc : c ∈ property) (hfoul : c ∈ foulMarks) :
    ThemeTokens.tokenOf? property = none := by
  rw [Option.eq_none_iff_forall_ne_some]
  rintro ⟨kind, token⟩ htoken
  obtain ⟨rest, hrest, -⟩ := Option.bind_eq_some_iff.1 htoken
  obtain rfl := Text.after?_eq_some_iff.1 hrest
  have hmarks : ∀ d ∈ foulMarks, ¬IsTokenChar d := by decide
  have hspaces : ∀ d ∈ '-' :: '-' :: kind.namespaceOf, d ∉ foulMarks := by
    cases kind <;> decide
  rcases ThemeTokens.tokenOf?_eq_some_iff.1 htoken with ⟨rfl, hname⟩ | ⟨-, rfl, halias⟩
  · rw [isTokenName_iff] at hname
    rw [← List.append_assoc] at hc
    rcases List.mem_append.1 hc with hc | hc
    · exact hspaces c hc hfoul
    · exact hmarks c hfoul (hname.2 c hc)
  · rcases List.mem_append.1 hc with hc | hc
    · exact hspaces c (by simpa using Or.inl hc) hfoul
    · exact hmarks c hfoul (isTokenChar_alias _ halias c hc)

/-- Before the first colon stands a mark that no token has. -/
def Fouled (text : Text) : Prop :=
  ∀ before after, text = before ++ ':' :: after → ∃ c ∈ before, c ∈ foulMarks

namespace Fouled

theorem cons {c : Char} {rest : Text} (hc : c ≠ ':') (h : Fouled rest) : Fouled (c :: rest) := by
  intro before after hsplit
  cases before with
  | nil => exact absurd (List.cons.inj hsplit).1 hc
  | cons d before =>
    obtain ⟨e, he, hfoul⟩ := h before after (List.cons.inj hsplit).2
    exact ⟨e, List.mem_cons_of_mem d he, hfoul⟩

theorem append {front rest : Text} (hfront : ':' ∉ front) (h : Fouled rest) :
    Fouled (front ++ rest) := by
  induction front with
  | nil => exact h
  | cons c front ih =>
    rw [List.mem_cons, not_or] at hfront
    exact cons (Ne.symm hfront.1) (ih hfront.2)

theorem of_foul {c : Char} (hc : c ∈ foulMarks) (rest : Text) : Fouled (c :: rest) := by
  intro before after hsplit
  cases before with
  | nil =>
    rw [(List.cons.inj hsplit).1] at hc
    exact absurd hc (by decide)
  | cons d before => exact ⟨d, by simp, (List.cons.inj hsplit).1 ▸ hc⟩

end Fouled

section Tokens

variable {view : Lexeme → Text}

/-- A colon of the view belongs to a comment or string, or stands behind a string. -/
theorem fouled_view {name rest : List Lexeme} (hview : IsDeclarationView view name)
    (hname : .char ':' ∉ name)
    (hrest : rest = [] ∨ ∃ lexeme ∈ name, lexeme.isChar = false ∧ lexeme.isComment = false) :
    Fouled ((name ++ rest).flatMap view) := by
  induction name with
  | nil =>
    rcases hrest with rfl | ⟨lexeme, hmem, -⟩
    · intro before after hsplit
      exact absurd hsplit (by simp)
    · cases hmem
  | cons lexeme name ih =>
    rw [List.mem_cons, not_or] at hname
    have hlater : (lexeme.isChar = false → lexeme.isComment = true) →
        Fouled ((name ++ rest).flatMap view) := by
      intro hself
      refine ih hview.tail hname.2 (hrest.imp id ?_)
      rintro ⟨other, hother, hforeign, hcomment⟩
      rcases List.mem_cons.1 hother with rfl | hother
      · rw [hself hforeign] at hcomment
        cases hcomment
      · exact ⟨other, hother, hforeign, hcomment⟩
    rw [List.cons_append, List.flatMap_cons]
    cases lexeme with
    | char c =>
      rw [hview.char, List.singleton_append]
      exact (hlater (by simp [Lexeme.isChar])).cons fun hc => hname.1 (by rw [hc])
    | comment content =>
      -- A comment in its source starts with a slash, which spoils the name by itself.
      rcases (hview.comment content (by simp)).2 with hblank | ⟨-, hsource⟩
      · refine (hlater fun _ => rfl).append fun hcolon => ?_
        exact absurd (hblank ':' hcolon) (by decide)
      · rw [hsource]
        exact .of_foul (by decide) _
    | string quote content =>
      obtain ⟨c, later, hstring, hquote⟩ := hview.string quote content (by simp)
      rw [hstring]
      exact .of_foul (by rcases hquote with rfl | rfl <;> decide) _

theorem declaredName?_of_fouled {part text blanks : Text}
    (hcore : dropComments (Text.trim part) = text) (h : Fouled (text ++ blanks)) :
    (declaredName? part).bind ThemeTokens.tokenOf? = none := by
  unfold declaredName?
  rw [hcore]
  cases hcut : Text.cut? ':' text with
  | none => rfl
  | some pieces =>
    obtain ⟨name, value⟩ := pieces
    obtain ⟨rfl, -⟩ := Text.cut?_eq_some_iff.1 hcut
    obtain ⟨c, hc, hfoul⟩ := h name (value ++ blanks) (by simp)
    have hvisible : Text.isBlank c = false := by
      have hmarks : ∀ d ∈ foulMarks, Text.isBlank d = false := by decide
      exact hmarks c hfoul
    have hnone := tokenOf?_of_foul (Text.mem_trim hc hvisible) hfoul
    simp only
    split
    · exact hnone
    · rfl

/-- A star at the head of a view is a character of its own. -/
theorem head_of_view_star {list : List Lexeme} (hview : IsDeclarationView view list)
    (h : (list.flatMap view).head? = some '*') : list.head? = some (.char '*') := by
  cases list with
  | nil => cases h
  | cons lexeme list =>
    rw [List.flatMap_cons] at h
    cases lexeme with
    | char c =>
      rw [hview.char] at h
      rw [Option.some.inj h]
      rfl
    | comment content =>
      obtain ⟨hne, hcontent⟩ := hview.comment content (by simp)
      obtain ⟨c, rest, hc⟩ := List.exists_cons_of_ne_nil hne
      rw [hc] at h hcontent
      obtain rfl : c = '*' := Option.some.inj h
      rcases hcontent with hblank | ⟨-, hsource⟩
      · exact absurd (hblank '*' (by simp)) (by decide)
      · exact absurd (List.cons.inj hsource).1 (by decide)
    | string quote content =>
      obtain ⟨c, rest, hc, hquote⟩ := hview.string quote content (by simp)
      rw [hc] at h
      obtain rfl : c = '*' := Option.some.inj h
      exact absurd hquote (by decide)

theorem exists_first_of_core {lexeme : Lexeme} {list : List Lexeme}
    (hview : IsDeclarationView view (lexeme :: list)) (hclear : Clear (lexeme :: list))
    (hgap : lexeme.isGap = false) :
    ∃ c rest, (lexeme :: list).flatMap view = c :: rest ∧ Text.isBlank c = false ∧
      ¬(c = '/' ∧ rest.head? = some '*') := by
  rw [List.flatMap_cons]
  cases lexeme with
  | char c =>
    refine ⟨c, list.flatMap view, by rw [hview.char]; rfl, hgap, ?_⟩
    rintro ⟨rfl, hstar⟩
    have hlist := head_of_view_star hview.tail hstar
    exact hclear.seam rfl hlist
  | comment content => cases hgap
  | string quote content =>
    obtain ⟨c, rest, hc, hquote⟩ := hview.string quote content (by simp)
    refine ⟨c, rest ++ list.flatMap view, by rw [hc]; rfl, ?_, ?_⟩
    · rcases hquote with rfl | rfl <;> decide
    · rintro ⟨rfl, -⟩
      exact absurd hquote (by decide)

theorem takeWhile_append_coreOf (part : List Lexeme) :
    part.takeWhile Lexeme.isGap ++ coreOf part = part :=
  List.takeWhile_append_dropWhile

/-- What is left of a part without the comments in front of it. -/
theorem exists_core_text {part : List Lexeme} (hview : IsDeclarationView view part)
    (hclear : Clear part) (hne : coreOf part ≠ []) :
    ∃ text blanks, (coreOf part).flatMap view = text ++ blanks ∧
      (∀ c ∈ blanks, Text.isBlank c = true) ∧
      dropComments (Text.trim (part.flatMap view)) = text := by
  have hsplit := takeWhile_append_coreOf part
  have hgaps : ∀ lexeme ∈ part.takeWhile Lexeme.isGap, lexeme.isGap = true :=
    fun lexeme hmem => List.mem_takeWhile_imp hmem
  have hcore : coreOf part <:+ part := List.dropWhile_suffix _
  have hhead : ∀ lexeme, (coreOf part).head? = some lexeme → lexeme.isGap = false := by
    intro lexeme hlexeme
    have hnot := List.head?_dropWhile_not Lexeme.isGap part
    unfold coreOf at hlexeme
    rw [hlexeme] at hnot
    exact hnot
  have hcoreView := hview.of_subset hcore.subset
  have hcoreClear := hclear.of_within hcore.isInfix
  generalize coreOf part = core at *
  obtain ⟨lexeme, list, rfl⟩ := List.exists_cons_of_ne_nil hne
  obtain ⟨c, rest, hfirst, hvisible, hcomment⟩ :=
    exists_first_of_core hcoreView hcoreClear (hhead lexeme rfl)
  obtain ⟨text, blanks, htext, hblanks, hend⟩ :=
    Text.exists_blanks_behind ((lexeme :: list).flatMap view)
  refine ⟨text, blanks, htext, hblanks, ?_⟩
  obtain ⟨later, rfl⟩ : ∃ later, text = c :: later := by
    rw [hfirst] at htext
    cases text with
    | nil =>
      have hblank := hblanks c (by rw [← List.nil_append blanks, ← htext]; simp)
      rw [hvisible] at hblank
      cases hblank
    | cons d later => exact ⟨later, by rw [(List.cons.inj htext).1]⟩
  have hstart : Text.trimStart (c :: later) = c :: later :=
    Text.dropWhile_eq_self (by simpa using hvisible)
  have hopen : dropComments (c :: later) = c :: later := by
    rw [dropComments]
    rintro content heq
    obtain ⟨rfl, rfl⟩ := List.cons.inj heq
    rw [hfirst] at htext
    exact hcomment ⟨rfl, by rw [(List.cons.inj htext).2]; rfl⟩
  rw [← hsplit, List.flatMap_append, htext, ← List.append_assoc,
    Text.trim_append_blanks _ hblanks,
    Text.trim_of_endsBlank (Text.endsBlank_append (List.cons_ne_nil _ _) hend _),
    dropComments_gaps (hview.of_subset (List.takeWhile_prefix _).subset) hgaps, hstart, hopen]

theorem nameOf_append_rest (part : List Lexeme) :
    nameOf part ++ (coreOf part).dropWhile (· ≠ .char ':') = coreOf part :=
  List.takeWhile_append_dropWhile

theorem coreOf_of_colon {part : List Lexeme} (h : .char ':' ∈ part) :
    coreOf part = nameOf part ++ .char ':' :: valueOf part := by
  have hcore : .char ':' ∈ coreOf part := by
    rw [← takeWhile_append_coreOf part] at h
    rcases List.mem_append.1 h with h | h
    · exact absurd (List.mem_takeWhile_imp h) (by decide)
    · exact h
  have hsplit := nameOf_append_rest part
  cases hrest : (coreOf part).dropWhile (· ≠ .char ':') with
  | nil =>
    rw [List.dropWhile_eq_nil_iff] at hrest
    exact absurd (hrest _ hcore) (by simp)
  | cons mark value =>
    have hmark : mark = .char ':' := by
      have hnot := List.head?_dropWhile_not (· ≠ Lexeme.char ':') (coreOf part)
      rw [hrest] at hnot
      simpa using hnot
    rw [← hsplit, valueOf, hrest, hmark]
    rfl

theorem colon_not_mem_nameOf (part : List Lexeme) : .char ':' ∉ nameOf part := by
  intro hmem
  exact absurd (List.mem_takeWhile_imp hmem) (by simp)

theorem flatMap_chars {list : List Lexeme} (hview : IsDeclarationView view list)
    (h : ∀ lexeme ∈ list, lexeme.isChar = true) :
    list.flatMap view = list.flatMap Lexeme.source := by
  induction list with
  | nil => rfl
  | cons lexeme list ih =>
    obtain ⟨c, rfl⟩ := Lexeme.exists_of_isChar (h lexeme (by simp))
    have hlater := ih hview.tail
      fun other hother => h other (by simp [hother])
    rw [List.flatMap_cons, List.flatMap_cons, hview.char, hlater]
    rfl

/-- A value of gaps only is blank if it has no comment; any other value is visible. -/
theorem trim_view_eq_nil_iff {value : List Lexeme} (hview : IsDeclarationView view value)
    (htidy : (∀ lexeme ∈ value, lexeme.isGap = true) → ∀ lexeme ∈ value, lexeme.isComment = false) :
    Text.trim (value.flatMap view) = [] ↔ ∀ lexeme ∈ value, lexeme.isGap = true := by
  rw [Text.trim_eq_nil_iff]
  constructor
  · intro hblank lexeme hmem
    cases lexeme with
    | char c => exact hblank c (List.mem_flatMap.2 ⟨_, hmem, by rw [hview.char]; simp⟩)
    | comment content => rfl
    | string quote content =>
      obtain ⟨c, rest, hc, hquote⟩ := hview.string quote content hmem
      have hvisible := hblank c (List.mem_flatMap.2 ⟨_, hmem, by rw [hc]; simp⟩)
      rcases hquote with rfl | rfl <;> exact absurd hvisible (by decide)
  · intro hgaps c hc
    obtain ⟨lexeme, hmem, hc⟩ := List.mem_flatMap.1 hc
    have hgap := hgaps lexeme hmem
    cases lexeme with
    | char d =>
      rw [hview.char, List.mem_singleton] at hc
      rw [hc]
      exact hgap
    | comment content => cases htidy hgaps _ hmem
    | string quote content => cases hgap

theorem exists_cut_of_blanks {name value text blanks : Text}
    (hblanks : ∀ c ∈ blanks, Text.isBlank c = true) (h : name ++ ':' :: value = text ++ blanks) :
    ∃ front, text = name ++ ':' :: front ∧ value = front ++ blanks := by
  rcases List.append_eq_append_iff.1 h with ⟨front, htext, hrest⟩ | ⟨front, -, hrest⟩
  · cases front with
    | nil =>
      have hcolon := hblanks ':' (by rw [← List.nil_append blanks, ← hrest]; simp)
      exact absurd hcolon (by decide)
    | cons c front =>
      obtain ⟨rfl, hvalue⟩ := List.cons.inj hrest
      exact ⟨front, htext, hvalue⟩
  · exact absurd (hblanks ':' (by rw [hrest]; simp)) (by decide)

/-- A declaration with a plain name is cut at its colon. -/
theorem declaredName?_plain {part : List Lexeme} (hview : IsDeclarationView view part)
    (htidy : Tidy part) (hcolon : .char ':' ∈ part)
    (hchars : ∀ lexeme ∈ nameOf part, lexeme.isChar = true) {text blanks : Text}
    (hcore : (coreOf part).flatMap view = text ++ blanks)
    (hblanks : ∀ c ∈ blanks, Text.isBlank c = true)
    (hdrop : dropComments (Text.trim (part.flatMap view)) = text) :
    (declaredName? (part.flatMap view)).bind ThemeTokens.tokenOf? = declaredToken? part := by
  have hsub : ∀ {list : List Lexeme}, list <:+: coreOf part → IsDeclarationView view list := by
    intro list hlist
    exact hview.of_subset fun lexeme hmem =>
      (List.dropWhile_suffix _).subset (hlist.subset hmem)
  have hsplit := coreOf_of_colon hcolon
  have hname := flatMap_chars (hsub ⟨[], _, by rw [hsplit]; rfl⟩) hchars
  have hvalue := trim_view_eq_nil_iff (hsub ⟨nameOf part ++ [.char ':'], [], by rw [hsplit]; simp⟩)
    htidy.value
  have hnone : ':' ∉ (nameOf part).flatMap Lexeme.source := by
    intro hmem
    obtain ⟨lexeme, hlexeme, hc⟩ := List.mem_flatMap.1 hmem
    obtain ⟨c, rfl⟩ := Lexeme.exists_of_isChar (hchars lexeme hlexeme)
    obtain rfl : ':' = c := List.mem_singleton.1 hc
    exact colon_not_mem_nameOf part hlexeme
  have hcut : ∃ value, Text.cut? ':' text = some ((nameOf part).flatMap Lexeme.source, value) ∧
      Text.trim value = Text.trim ((valueOf part).flatMap view) := by
    rw [hsplit, List.flatMap_append, List.flatMap_cons, hview.char, hname,
      List.singleton_append] at hcore
    obtain ⟨value, rfl, hvalues⟩ := exists_cut_of_blanks hblanks hcore
    refine ⟨value, Text.cut?_eq_some_iff.2 ⟨rfl, hnone⟩, ?_⟩
    rw [hvalues, Text.trim_append_blanks _ hblanks]
  obtain ⟨value, hcut, htrim⟩ := hcut
  rw [← htrim] at hvalue
  unfold declaredName?
  rw [hdrop, hcut]
  simp only
  by_cases hgaps : ∀ lexeme ∈ valueOf part, lexeme.isGap = true
  · have htoken : declaredToken? part = none := if_neg fun h => h.2.2 hgaps
    rw [htoken, hvalue.2 hgaps]
    simp
  · have htoken : declaredToken? part =
        ThemeTokens.tokenOf? (Text.trim ((nameOf part).flatMap Lexeme.source)) :=
      if_pos ⟨hcolon, hchars, hgaps⟩
    have hvisible : (Text.trim value).isEmpty = false := by
      rw [List.isEmpty_eq_false_iff]
      exact fun hnil => hgaps (hvalue.1 hnil)
    rw [htoken, hvisible, Bool.not_false, Bool.and_true]
    split
    · rfl
    · rename_i hstart
      have hafter : (Text.trim ((nameOf part).flatMap Lexeme.source)).after? ['-', '-'] = none := by
        simpa [Text.startsWith] using hstart
      rw [ThemeTokens.tokenOf?, hafter]
      rfl

/-- In every view a declaration makes the same token. -/
theorem declaredName?_view {part : List Lexeme} (hview : IsDeclarationView view part)
    (hclear : Clear part) (htidy : Tidy part) :
    (declaredName? (part.flatMap view)).bind ThemeTokens.tokenOf? = declaredToken? part := by
  by_cases hcore : coreOf part = []
  · have hcolon : .char ':' ∉ part := by
      intro hmem
      have hsplit := coreOf_of_colon hmem
      rw [hcore] at hsplit
      exact absurd hsplit (by simp)
    have hgaps : ∀ lexeme ∈ part, lexeme.isGap = true := List.dropWhile_eq_nil_iff.1 hcore
    rw [declaredToken?, if_neg fun h => hcolon h.1]
    unfold declaredName?
    rw [dropComments_trim_gaps hview hgaps]
    rfl
  · obtain ⟨text, blanks, htext, hblanks, hdrop⟩ := exists_core_text hview hclear hcore
    by_cases hplain : .char ':' ∈ part ∧ ∀ lexeme ∈ nameOf part, lexeme.isChar = true
    · exact declaredName?_plain hview htidy hplain.1 hplain.2 htext hblanks hdrop
    · rw [declaredToken?, if_neg fun h => hplain ⟨h.1, h.2.1⟩]
      apply declaredName?_of_fouled hdrop
      rw [← htext, ← nameOf_append_rest part]
      have hsub : nameOf part ⊆ part := fun lexeme hmem =>
        (List.dropWhile_suffix _).subset ((List.takeWhile_prefix _).subset hmem)
      apply fouled_view (hview.of_subset hsub) (colon_not_mem_nameOf part)
      by_cases hcolon : .char ':' ∈ part
      · have hforeign : ∃ lexeme ∈ nameOf part, lexeme.isChar = false := by
          simpa [hcolon] using hplain
        obtain ⟨lexeme, hmem, hlexeme⟩ := hforeign
        exact .inr ⟨lexeme, hmem, hlexeme, htidy.name hcolon lexeme hmem⟩
      · refine .inl (List.dropWhile_eq_nil_iff.2 fun lexeme hmem => ?_)
        have hpart : lexeme ∈ part := (List.dropWhile_suffix _).subset hmem
        simp only [decide_eq_true_eq]
        rintro rfl
        exact hcolon hpart

end Tokens

end ClassAudit.Theme
