import ClassAudit.Proofs.Css.Lexemes
import ClassAudit.Proofs.Theme.TopLevelRules
/-!
# Comments and strings in the search for theme rules

The search for theme rules reads a sheet character by character.  Over a comment
or a string, in its source or masked, it comes back to where it was.  Inside a
theme rule, where strings are not read as such, this needs a comment or string
without the characters that structure a sheet.
-/

namespace ClassAudit.Theme

open Css

/-- Reading a text leads from one place to another, and no theme rule starts on the way. -/
inductive Glides (readsStrings : Bool) : Place → Text → Place → Prop where
  | nil (place : Place) : Glides readsStrings place [] place
  | cons {place goal : Place} {c : Char} {rest : Text} (hc : place.isTop = true → c ≠ '@')
      (hrest : Glides readsStrings (place.step readsStrings c) rest goal) :
      Glides readsStrings place (c :: rest) goal

namespace Glides

variable {readsStrings : Bool} {place goal : Place} {text : Text}

theorem run_eq (h : Glides readsStrings place text goal) : place.run readsStrings text = goal := by
  induction h with
  | nil => rfl
  | cons _ _ ih => exact ih

theorem bodiesFrom_append (h : Glides true place text goal) (rest : Text) :
    bodiesFrom place (text ++ rest) = bodiesFrom goal rest := by
  induction h with
  | nil => rfl
  | @cons place goal c text hc _ ih =>
    have hother : place.isTop = true → ruleStart (c :: (text ++ rest)) = .other := by
      intro htop
      apply ruleStart_of_other_word
      rintro ⟨later, hlater⟩
      exact hc htop (List.cons.inj hlater).1.symm
    rw [List.cons_append, bodiesFrom_cons_other hother, ih]

end Glides

/-! ## Comments -/

theorem glides_blanks (readsStrings : Bool) (depth : Nat) (slash : Bool) {blanks : Text}
    (hne : blanks ≠ []) (h : ∀ c ∈ blanks, c = ' ') :
    Glides readsStrings ⟨depth, .code slash⟩ blanks ⟨depth, .code false⟩ := by
  induction blanks generalizing slash with
  | nil => exact absurd rfl hne
  | cons c blanks ih =>
    obtain rfl : c = ' ' := h c (by simp)
    refine .cons (by simp) ?_
    rw [Place.step_code readsStrings depth ' ' (fun _ => by decide) (by simp)]
    by_cases hlast : blanks = []
    · rw [hlast]
      exact .nil _
    · exact ih _ hlast fun d hd => h d (by simp [hd])

theorem glides_commentBody (readsStrings : Bool) (depth : Nat) {content : Text}
    (h : IsCommentBody content) {star : Bool} (hseam : star = true → content.head? ≠ some '/') :
    Glides readsStrings ⟨depth, .comment star⟩ (content ++ ['*', '/']) ⟨depth, .code false⟩ := by
  have htop : ∀ star, Place.isTop ⟨depth, .comment star⟩ = false := fun _ => rfl
  induction content generalizing star with
  | nil =>
    refine .cons (by simp [htop]) (.cons (by cases star <;> simp [Place.step, htop]) ?_)
    cases star <;> exact .nil _
  | cons c content ih =>
    have hstep : Place.step readsStrings ⟨depth, .comment star⟩ c =
        ⟨depth, .comment (c == '*')⟩ := by
      have hend : (star && c == '/') = false := by
        cases star with
        | false => rfl
        | true => simpa using hseam rfl
      simp [Place.step, hend]
    refine .cons (by simp [htop]) ?_
    rw [hstep]
    apply ih h.tail
    intro hc
    obtain rfl : c = '*' := eq_of_beq hc
    exact h.seam

theorem glides_comment (readsStrings : Bool) (depth : Nat) (slash : Bool) {content : Text}
    (h : IsCommentBody content) :
    Glides readsStrings ⟨depth, .code slash⟩ (Lexeme.comment content).source
      ⟨depth, .code false⟩ := by
  refine .cons (by simp) ?_
  rw [Place.step_code readsStrings depth '/' (fun _ => by decide) (by simp)]
  refine .cons (by simp) ?_
  have hopen : Place.step readsStrings ⟨depthStep depth '/', .code ('/' == '/')⟩ '*' =
      ⟨depth, .comment false⟩ := by
    cases readsStrings <;> rfl
  rw [hopen]
  exact glides_commentBody readsStrings depth h (by simp)

/-! ## Strings -/

theorem glides_stringBody (depth : Nat) {quote : Char} {content : Text}
    (hquote : quote ≠ '\\') (h : IsStringBody quote content) :
    Glides true ⟨depth, .string quote false⟩ (content ++ [quote]) ⟨depth, .code false⟩ := by
  have htop : ∀ escaped, Place.isTop ⟨depth, .string quote escaped⟩ = false := fun _ => rfl
  induction h with
  | nil =>
    refine .cons (by simp [htop]) ?_
    have hstep : Place.step true ⟨depth, .string quote false⟩ quote = ⟨depth, .code false⟩ := by
      simp [Place.step, hquote]
    rw [hstep]
    exact .nil _
  | escape c _ ih => exact .cons (by simp [htop]) (.cons (by simp [Place.step, htop]) ih)
  | @other c rest hescape hc _ ih =>
    have hstep : Place.step true ⟨depth, .string quote false⟩ c =
        ⟨depth, .string quote false⟩ := by
      simp [Place.step, hescape, hc]
    refine .cons (by simp [htop]) ?_
    rw [hstep]
    exact ih

theorem glides_string (depth : Nat) (slash : Bool) {quote : Char} {content : Text}
    (hquote : quote = '"' ∨ quote = '\'') (h : IsStringBody quote content) :
    Glides true ⟨depth, .code slash⟩ (quote :: (content ++ [quote])) ⟨depth, .code false⟩ := by
  have hopen : Place.step true ⟨depth, .code slash⟩ quote = ⟨depth, .string quote false⟩ := by
    rcases hquote with rfl | rfl <;> rfl
  have hmarks : quote ≠ '@' ∧ quote ≠ '\\' := by
    rcases hquote with rfl | rfl <;> decide
  refine .cons (fun _ => hmarks.1) ?_
  rw [hopen]
  exact glides_stringBody depth hmarks.2 h

theorem isStringBody_struck {quote : Char} (hquote : quote = '"' ∨ quote = '\'')
    (content : Text) : IsStringBody quote (content.map struckChar) := by
  have hascii : Text.isAscii quote = true ∧ quote ≠ '_' := by
    rcases hquote with rfl | rfl <;> decide
  induction content with
  | nil => exact .nil
  | cons c content ih => exact .other (struckChar_ne (by decide)) (struckChar_ne hascii) ih

/-! ## Inside a rule -/

/-- A text that the reader of a block passes over as if it were blank. -/
structure Inert (text : Text) : Prop where
  unmarked : ∀ c ∈ text, c ∉ blockMarks
  run_false : ∀ depth slash, Place.run false ⟨depth, .code slash⟩ text = ⟨depth, .code false⟩

/-- Where strings are not read, a text without braces and comments leaves the place alone. -/
theorem exists_run_false {text : Text} (hmarks : ∀ c ∈ text, c ∉ blockMarks)
    (hcomment : text.includes ['/', '*'] = false) (depth : Nat) (slash : Bool)
    (hseam : slash = true → text.head? ≠ some '*') :
    ∃ slash', Place.run false ⟨depth, .code slash⟩ text = ⟨depth, .code slash'⟩ := by
  induction text generalizing slash with
  | nil => exact ⟨slash, rfl⟩
  | cons c rest ih =>
    rw [includes_comment_cons, Bool.or_eq_false_iff, decide_eq_false_iff_not] at hcomment
    have hc : c ≠ '{' ∧ c ≠ '}' := by
      have hmark := hmarks c (by simp)
      simp only [blockMarks, List.mem_cons, not_or] at hmark
      exact ⟨hmark.1, hmark.2.1⟩
    have hstep : Place.step false ⟨depth, .code slash⟩ c = ⟨depth, .code (c == '/')⟩ := by
      rw [Place.step_code false depth c (by simp) fun hslash hstar =>
          hseam hslash (by rw [hstar]; rfl), depthStep_of_ne hc.1 hc.2]
    have hnext : (c == '/') = true → rest.head? ≠ some '*' := fun hslash hstar =>
      hcomment.1 ⟨eq_of_beq hslash, hstar⟩
    obtain ⟨slash', hrun⟩ := ih (fun d hd => hmarks d (by simp [hd])) hcomment.2 _ hnext
    refine ⟨slash', ?_⟩
    rw [← hrun, ← hstep]
    rfl

theorem inert_quoted {quote : Char} (hquote : quote = '"' ∨ quote = '\'') {content : Text}
    (hmarks : ∀ c ∈ content, c ∉ blockMarks) (hcomment : content.includes ['/', '*'] = false) :
    Inert (quote :: (content ++ [quote])) where
  unmarked := by
    have hself : quote ∉ blockMarks := by
      rcases hquote with rfl | rfl <;> decide
    intro c hc
    simp only [List.mem_cons, List.mem_append, List.not_mem_nil, or_false] at hc
    rcases hc with rfl | hc | rfl
    · exact hself
    · exact hmarks c hc
    · exact hself
  run_false := by
    intro depth slash
    have hself : ∀ slash, Place.step false ⟨depth, .code slash⟩ quote = ⟨depth, .code false⟩ := by
      intro slash
      have hstar : quote ≠ '*' := by
        rcases hquote with rfl | rfl <;> decide
      rw [Place.step_code false depth quote (by simp) fun _ => hstar]
      rcases hquote with rfl | rfl <;> rfl
    obtain ⟨slash', hrun⟩ := exists_run_false hmarks hcomment depth false (by simp)
    show Place.run false (Place.step false ⟨depth, .code slash⟩ quote) (content ++ [quote]) = _
    rw [hself, Place.run_append, hrun]
    exact hself slash'

theorem inert_comment {content : Text} (h : IsCommentBody content)
    (hmarks : ∀ c ∈ content, c ∉ blockMarks) : Inert (Lexeme.comment content).source where
  unmarked := by
    intro c hc
    simp only [Lexeme.source, List.mem_cons, List.mem_append, List.not_mem_nil, or_false] at hc
    rcases hc with rfl | rfl | hc | rfl | rfl
    · decide
    · decide
    · exact hmarks c hc
    · decide
    · decide
  run_false := fun depth slash => (glides_comment false depth slash h).run_eq

theorem inert_blanks {blanks : Text} (hne : blanks ≠ []) (h : ∀ c ∈ blanks, c = ' ') :
    Inert blanks where
  unmarked := by
    intro c hc
    rw [h c hc]
    decide
  run_false := fun depth slash => (glides_blanks false depth slash hne h).run_eq

theorem blanked_spec (content : Text) : (Lexeme.comment content).masked ≠ [] ∧
    ∀ c ∈ (Lexeme.comment content).masked, c = ' ' := by
  constructor
  · exact List.cons_ne_nil _ _
  · intro c hc
    obtain ⟨d, -, hc⟩ := List.mem_flatMap.1 hc
    exact List.eq_of_mem_replicate hc

/-! ## Views of lexemes -/

/-- A way to write lexemes that the search for theme rules cannot tell from any other. -/
structure IsView (view : Lexeme → Text) (list : List Lexeme) : Prop where
  char : ∀ c, view (.char c) = [c]
  starts : ∀ lexeme ∈ list, lexeme.isChar = false → ∃ c rest, view lexeme = c :: rest ∧
    c ∉ themeWord
  glides : ∀ lexeme ∈ list, lexeme.isChar = false → ∀ depth slash,
    Glides true ⟨depth, .code slash⟩ (view lexeme) ⟨depth, .code false⟩
  inert : ∀ lexeme ∈ list, lexeme.isChar = false → lexeme.Quiet → Inert (view lexeme)

theorem IsView.of_subset {view : Lexeme → Text} {list part : List Lexeme} (h : IsView view list)
    (hpart : part ⊆ list) : IsView view part where
  char := h.char
  starts := fun lexeme hmem => h.starts lexeme (hpart hmem)
  glides := fun lexeme hmem => h.glides lexeme (hpart hmem)
  inert := fun lexeme hmem => h.inert lexeme (hpart hmem)

theorem IsView.tail {view : Lexeme → Text} {lexeme : Lexeme} {list : List Lexeme}
    (h : IsView view (lexeme :: list)) : IsView view list :=
  h.of_subset (List.subset_cons_self lexeme list)

theorem quote_not_mem_themeWord {quote : Char} (h : quote = '"' ∨ quote = '\'') :
    quote ∉ themeWord := by
  rcases h with rfl | rfl <;> decide

theorem isView_source {list : List Lexeme} (h : ∀ lexeme ∈ list, lexeme.WellFormed) :
    IsView Lexeme.source list where
  char := fun _ => rfl
  starts := by
    intro lexeme hmem hforeign
    cases lexeme with
    | char c => cases hforeign
    | comment content => exact ⟨'/', _, rfl, by decide⟩
    | string quote content =>
      exact ⟨quote, _, rfl, quote_not_mem_themeWord (h _ hmem).1⟩
  glides := by
    intro lexeme hmem hforeign depth slash
    cases lexeme with
    | char c => cases hforeign
    | comment content => exact glides_comment true depth slash (h _ hmem)
    | string quote content => exact glides_string depth slash (h _ hmem).1 (h _ hmem).2
  inert := by
    intro lexeme hmem hforeign hquiet
    cases lexeme with
    | char c => cases hforeign
    | comment content => exact inert_comment (h _ hmem) hquiet
    | string quote content => exact inert_quoted (h _ hmem).1 hquiet.1 hquiet.2

theorem isView_masked {list : List Lexeme} (h : ∀ lexeme ∈ list, lexeme.WellFormed) :
    IsView Lexeme.masked list where
  char := fun _ => rfl
  starts := by
    intro lexeme hmem hforeign
    cases lexeme with
    | char c => cases hforeign
    | comment content => exact ⟨' ', _, rfl, by decide⟩
    | string quote content =>
      exact ⟨quote, _, rfl, quote_not_mem_themeWord (h _ hmem).1⟩
  glides := by
    intro lexeme hmem hforeign depth slash
    cases lexeme with
    | char c => cases hforeign
    | comment content =>
      obtain ⟨hne, hblanks⟩ := blanked_spec content
      exact glides_blanks true depth slash hne hblanks
    | string quote content =>
      exact glides_string depth slash (h _ hmem).1 (isStringBody_struck (h _ hmem).1 content)
  inert := by
    intro lexeme hmem hforeign _
    cases lexeme with
    | char c => cases hforeign
    | comment content =>
      obtain ⟨hne, hblanks⟩ := blanked_spec content
      exact inert_blanks hne hblanks
    | string quote content =>
      have hstruck : ∀ c ∈ content.map struckChar, ∃ d, struckChar d = c := by
        intro c hc
        obtain ⟨d, -, hd⟩ := List.mem_map.1 hc
        exact ⟨d, hd⟩
      refine inert_quoted (h _ hmem).1 ?_ ?_
      · intro c hc hmark
        obtain ⟨d, rfl⟩ := hstruck c hc
        have hmarks : ∀ e ∈ blockMarks, Text.isAscii e = true ∧ e ≠ '_' := by decide
        exact struckChar_ne (hmarks _ hmark) rfl
      · rw [Bool.eq_false_iff]
        intro hincludes
        obtain ⟨d, hd⟩ := hstruck '/' (Text.mem_of_includes hincludes (by decide))
        exact struckChar_ne (by decide) hd

end ClassAudit.Theme
