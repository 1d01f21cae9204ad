import ClassAudit.Markup.Attribute
/-!
# Reading over braces and quotes

Two readers meet expressions in braces: the one that cuts a text into segments,
and the one that looks for the end of a quoted value.  Both follow
`Mustache.Inside`, so what the first takes for the body of an expression the
second passes over as a whole.  A source with one quoted value between its only
two quotes holds one class attribute, whatever the value looks like.
-/

namespace ClassAudit.Mustache

/-- The place behind a text, or none if the text closes the outermost brace. -/
def Inside.run (place : Inside) (text : Text) : Option Inside :=
  text.foldlM Inside.step place

/-- A text that may stand in braces: it closes what it opens and no more. -/
def IsBody (content : Text) : Prop :=
  Inside.run {} content = some {}

theorem isBody_of_unquoted {content : Text}
    (h : ∀ c ∈ content, isQuote c = false ∧ c ≠ '{' ∧ c ≠ '}') : IsBody content := by
  unfold IsBody Inside.run
  induction content with
  | nil => rfl
  | cons c content ih =>
    obtain ⟨hquote, hopen, hclose⟩ := h c (by simp)
    have hstep : Inside.step {} c = some {} := by
      simp only [Inside.step, hquote, hopen, hclose, Bool.false_eq_true, if_false]
    rw [List.foldlM_cons, hstep]
    exact ih fun d hd => h d (by simp [hd])

theorem exists_step_of_run_cons {place next : Inside} {c : Char} {content : Text}
    (h : place.run (c :: content) = some next) :
    ∃ middle, place.step c = some middle ∧ middle.run content = some next := by
  unfold Inside.run at h ⊢
  rw [List.foldlM_cons] at h
  exact Option.bind_eq_some_iff.1 h

/-! ## Segments -/

theorem expressionFrom_append {place next : Inside} {content : Text}
    (h : place.run content = some next) (before read rest : Text) :
    expressionFrom before read place (content ++ rest) =
      expressionFrom before (content.reverse ++ read) next rest := by
  induction content generalizing place read with
  | nil =>
    obtain rfl := Option.some.inj h
    rfl
  | cons c content ih =>
    obtain ⟨middle, hstep, hrest⟩ := exists_step_of_run_cons h
    rw [List.cons_append, expressionFrom, hstep]
    simp only
    rw [ih hrest, List.reverse_cons, List.append_assoc, List.singleton_append]

theorem segmentsFrom_expression {content : Text} (h : IsBody content) (before rest : Text) :
    segmentsFrom before ('{' :: (content ++ '}' :: rest)) =
      textSegment before ++ .expression content :: segmentsFrom [] rest := by
  rw [segmentsFrom, if_pos rfl, expressionFrom_append h, List.append_nil, expressionFrom]
  show textSegment before ++ .expression content.reverse.reverse :: segmentsFrom [] rest = _
  rw [List.reverse_reverse]

theorem segmentsFrom_text {content : Text} (h : '{' ∉ content) (before rest : Text) :
    segmentsFrom before (content ++ rest) = segmentsFrom (content.reverse ++ before) rest := by
  induction content generalizing before with
  | nil => rfl
  | cons c content ih =>
    have hc : c ≠ '{' := fun heq => h (by simp [heq])
    rw [List.cons_append, segmentsFrom, if_neg hc, ih fun hmem => h (by simp [hmem]),
      List.reverse_cons, List.append_assoc, List.singleton_append]

end ClassAudit.Mustache

namespace ClassAudit.ClassAttribute

open Mustache

/-! ## Quoted values -/

theorem quotedValue?_inside {place next : Inside} {content : Text}
    (h : place.run content = some next) (quote : Char) (rest : Text) :
    quotedValue? quote (some place) (content ++ rest) =
      (quotedValue? quote (some next) rest).map (content ++ ·) := by
  induction content generalizing place with
  | nil =>
    obtain rfl := Option.some.inj h
    simp
  | cons c content ih =>
    obtain ⟨middle, hstep, hrest⟩ := exists_step_of_run_cons h
    rw [List.cons_append, quotedValue?, hstep, ih hrest, Option.map_map]
    rfl

theorem quotedValue?_expression {content : Text} (h : IsBody content) (quote : Char)
    (rest : Text) :
    quotedValue? quote none ('{' :: (content ++ '}' :: rest)) =
      (quotedValue? quote none rest).map fun value => '{' :: (content ++ '}' :: value) := by
  have hclose : quotedValue? quote (some {}) ('}' :: rest) =
      (quotedValue? quote none rest).map ('}' :: ·) := by
    rw [quotedValue?]
    rfl
  rw [quotedValue?, if_neg (by decide), if_pos rfl, quotedValue?_inside h, hclose, Option.map_map,
    Option.map_map]
  · rfl
  · simp

theorem quotedValue?_text {quote : Char} {content : Text}
    (h : ∀ c ∈ content, c ≠ '\\' ∧ c ≠ '{' ∧ c ≠ quote) (rest : Text) :
    quotedValue? quote none (content ++ rest) =
      (quotedValue? quote none rest).map (content ++ ·) := by
  induction content with
  | nil => simp
  | cons c content ih =>
    obtain ⟨hescape, hopen, hquote⟩ := h c (by simp)
    rw [List.cons_append, quotedValue?, if_neg hescape, if_neg hopen, if_neg hquote,
      ih fun d hd => h d (by simp [hd]), Option.map_map]
    · rfl
    · rintro d later rfl
      exact absurd rfl hescape

/-! ## One quoted attribute -/

/-- A value starts behind a quote. -/
theorem exists_quote_of_valueAt? {previous : Option Char} {text value : Text}
    (h : valueAt? previous text = some value) :
    ∃ quote behind, (quote = '"' ∨ quote = '\'') ∧ quote :: behind <:+ text ∧
      quotedValue? quote none behind = some value := by
  unfold valueAt? at h
  split at h
  · obtain ⟨afterName, hname, h⟩ := Option.bind_eq_some_iff.1 h
    obtain ⟨afterEquals, hequals, h⟩ := Option.bind_eq_some_iff.1 h
    rw [Text.after?_eq_some_iff] at hname hequals
    have hafter : Text.trimStart afterEquals <:+ text := by
      have hbehindName : afterName <:+ text := ⟨"class".toList, hname.symm⟩
      have hbehindEquals : afterEquals <:+ Text.trimStart afterName := ⟨['='], hequals.symm⟩
      apply (List.dropWhile_suffix Text.isBlank).trans
      apply hbehindEquals.trans
      exact (List.dropWhile_suffix Text.isBlank).trans hbehindName
    split at h
    · rename_i quote behind hbehind
      split at h
      · rename_i hquote
        exact ⟨quote, behind, hquote, hbehind ▸ hafter, h⟩
      · cases h
    · cases h
  · cases h

theorem eq_nil_of_suffix_concat {text behind : Text} {c d : Char}
    (h : c :: behind <:+ text ++ [d]) (hc : c ∉ text) : behind = [] := by
  obtain ⟨front, hfront⟩ := h
  rcases List.eq_nil_or_concat behind with rfl | ⟨inner, last, rfl⟩
  · rfl
  · rw [List.concat_eq_append, ← List.cons_append, ← List.append_assoc] at hfront
    have hinner : front ++ c :: inner = text := List.append_inj_left' hfront rfl
    exact absurd (by simp [← hinner]) hc

/-- Where the only quote of a source is its last character, there is no value. -/
theorem valuesFrom_last_quote {text : Text} (h : ∀ c ∈ text, c ≠ '"' ∧ c ≠ '\'')
    (previous : Option Char) : valuesFrom previous (text ++ ['"']) = [] := by
  have hnone : ∀ {part : Text}, (∀ c ∈ part, c ≠ '"' ∧ c ≠ '\'') → ∀ previous,
      valueAt? previous (part ++ ['"']) = none := by
    intro part hpart previous
    rw [Option.eq_none_iff_forall_ne_some]
    intro value hvalue
    obtain ⟨quote, behind, hquote, hsuffix, hbehind⟩ := exists_quote_of_valueAt? hvalue
    have hunquoted : quote ∉ part := by
      intro hmem
      rcases hquote with rfl | rfl
      · exact (hpart _ hmem).1 rfl
      · exact (hpart _ hmem).2 rfl
    rw [eq_nil_of_suffix_concat hsuffix hunquoted] at hbehind
    cases hbehind
  induction text generalizing previous with
  | nil =>
    rw [List.nil_append, valuesFrom, valuesFrom, List.append_nil]
    exact congrArg Option.toList (hnone h previous)
  | cons c text ih =>
    rw [List.cons_append, valuesFrom, ih fun d hd => h d (by simp [hd]), List.append_nil]
    exact congrArg Option.toList (hnone h previous)

theorem valuesFrom_cons_of_ne {c : Char} (h : c ≠ 'c') (previous : Option Char) (text : Text) :
    valuesFrom previous (c :: text) = valuesFrom (some c) text := by
  have hname : Text.after? (c :: text) "class".toList = none := by
    show (if 'c' = c then _ else none) = none
    rw [if_neg h.symm]
  have hnone : valueAt? previous (c :: text) = none := by
    unfold valueAt?
    rw [hname]
    split <;> rfl
  rw [valuesFrom, hnone]
  rfl

/-- A quoted value without quotes is found once, whatever looks like an attribute in it. -/
theorem values_quoted {source : Text} (hsource : ∀ c ∈ source, c ≠ '"' ∧ c ≠ '\'')
    (hvalue : quotedValue? '"' none (source ++ ['"']) = some source) :
    values ("class=\"".toList ++ (source ++ ['"'])) = [source] := by
  show valuesFrom none ('c' :: 'l' :: 'a' :: 's' :: 's' :: '=' :: '"' :: (source ++ ['"'])) = _
  have hfirst : valueAt? none
      ('c' :: 'l' :: 'a' :: 's' :: 's' :: '=' :: '"' :: (source ++ ['"'])) = some source := hvalue
  rw [valuesFrom, hfirst]
  simp (disch := decide) only [valuesFrom_cons_of_ne]
  rw [valuesFrom_last_quote hsource]
  rfl

end ClassAudit.ClassAttribute
