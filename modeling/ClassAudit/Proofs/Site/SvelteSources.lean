import ClassAudit.Proofs.Markup.BracedTexts
import ClassAudit.Site.Extract
/-!
# Svelte attributes and their sources

A Svelte attribute comes with its parts, or with its source only.  The source is
searched for the attribute, its value is cut out and split at the braces, and the
pieces are then read as the parts are.  Both ways give the same tokens, although
a text of the value may look like an attribute and hold stray braces.
-/

namespace ClassAudit

/-- The texts that write the parts of a value: texts as they are, and names in braces.  Two texts
never meet, since their source would be one text. -/
inductive WritesParts : List SveltePart → Text → Prop where
  | nil : WritesParts [] []
  | text {content source : Text} {parts : List SveltePart}
      (hcontent : ∀ c ∈ content, c ≠ '"' ∧ c ≠ '\'' ∧ c ≠ '\\' ∧ c ≠ '{')
      (hnext : ∀ other, parts.head? ≠ some (.text other)) (hrest : WritesParts parts source) :
      WritesParts (.text content :: parts) (content ++ source)
  | tag {name source : Text} {parts : List SveltePart}
      (hname : ∀ c ∈ name, Mustache.isQuote c = false ∧ c ≠ '{' ∧ c ≠ '}')
      (hrest : WritesParts parts source) :
      WritesParts (.tag (.identifier name) :: parts) ('{' :: (name ++ '}' :: source))

namespace WritesParts

variable {parts : List SveltePart} {source : Text}

theorem unquoted (h : WritesParts parts source) : ∀ c ∈ source, c ≠ '"' ∧ c ≠ '\'' := by
  induction h with
  | nil => simp
  | text hcontent _ _ ih =>
    intro c hc
    rcases List.mem_append.1 hc with hc | hc
    · obtain ⟨hdouble, hsingle, -⟩ := hcontent c hc
      exact ⟨hdouble, hsingle⟩
    · exact ih c hc
  | tag hname _ ih =>
    intro c hc
    rcases List.mem_cons.1 hc with rfl | hc
    · decide
    rcases List.mem_append.1 hc with hc | hc
    · have hquote := (hname c hc).1
      simp only [Mustache.isQuote, Bool.or_eq_false_iff, beq_eq_false_iff_ne] at hquote
      exact hquote.1
    rcases List.mem_cons.1 hc with rfl | hc
    · decide
    · exact ih c hc

/-- The value ends at the quote behind it, and no text or name hides that quote. -/
theorem quotedValue? (h : WritesParts parts source) (rest : Text) :
    ClassAttribute.quotedValue? '"' none (source ++ '"' :: rest) = some source := by
  induction h with
  | nil =>
    rw [List.nil_append, ClassAttribute.quotedValue?]
    · rfl
    · simp
  | @text content source parts hcontent _ _ ih =>
    have hplain : ∀ c ∈ content, c ≠ '\\' ∧ c ≠ '{' ∧ c ≠ '"' := by
      intro c hc
      obtain ⟨hdouble, -, hescape, hopen⟩ := hcontent c hc
      exact ⟨hescape, hopen, hdouble⟩
    rw [List.append_assoc, ClassAttribute.quotedValue?_text hplain, ih]
    rfl
  | @tag name source parts hname _ ih =>
    rw [List.cons_append, List.append_assoc, List.cons_append,
      ClassAttribute.quotedValue?_expression (Mustache.isBody_of_unquoted hname), ih]
    rfl

/-- The segments of the value are the visible parts, and a text in front joins no text. -/
theorem map_segmentsFrom (h : WritesParts parts source) {piece : Mustache.Segment → Extract.Piece}
    (htext : ∀ content, piece (.text content) = .text content)
    (hexpression : ∀ content, piece (.expression content) = .interpolation [])
    {before : Text} (hbefore : before = [] ∨ ∀ other, parts.head? ≠ some (.text other)) :
    (Mustache.segmentsFrom before source).map piece =
      (Mustache.textSegment before).map piece ++
        (Extract.sveltePieces parts).filter Extract.Piece.isVisible := by
  induction h generalizing before with
  | nil => simp [Mustache.segmentsFrom, Extract.sveltePieces]
  | @text content source parts hcontent hnext _ ih =>
    have hopen : '{' ∉ content := fun hmem => (hcontent _ hmem).2.2.2 rfl
    obtain rfl : before = [] := hbefore.resolve_right fun hnone => hnone content rfl
    have hpieces : Extract.sveltePieces (.text content :: parts) =
        .text content :: Extract.sveltePieces parts := rfl
    rw [Mustache.segmentsFrom_text hopen, List.append_nil, ih (.inr hnext), hpieces]
    cases content with
    | nil => rfl
    | cons c content =>
      have hsegment : Mustache.textSegment (c :: content).reverse = [.text (c :: content)] := by
        simp [Mustache.textSegment]
      rw [hsegment, List.filter_cons_of_pos rfl, List.map_singleton, htext]
      rfl
  | @tag name source parts hname _ ih =>
    have hpieces : Extract.sveltePieces (.tag (.identifier name) :: parts) =
        .interpolation [] :: Extract.sveltePieces parts := by
      simp [Extract.sveltePieces, Extract.valueTokens]
    rw [Mustache.segmentsFrom_expression (Mustache.isBody_of_unquoted hname), List.map_append,
      List.map_cons, hexpression, ih (.inl rfl), hpieces, List.filter_cons_of_pos rfl]
    rfl

theorem sourceTokens_eq (h : WritesParts parts source) :
    Extract.sourceTokens ("class=\"".toList ++ (source ++ ['"'])) =
      Extract.interpolatedTokens (Extract.sveltePieces parts) := by
  unfold Extract.sourceTokens Extract.interpolatedTokens Mustache.segments
  rw [ClassAttribute.values_quoted h.unquoted (h.quotedValue? []), List.flatMap_singleton,
    h.map_segmentsFrom ?_ ?_ (.inl rfl)]
  · show Extract.visibleTokens false (List.filter _ (List.filter _ _)) = _
    rw [List.filter_filter]
    simp only [Bool.and_self]
  · intro content
    rfl
  · intro content
    rfl

end WritesParts

namespace SiteNode

/-- An attribute with parts has the tokens of its source, where the source writes the parts as the
quoted value of a class attribute. -/
theorem parts_tokens_eq_source_tokens {parts : List SveltePart} {value : Text}
    (h : WritesParts parts value) (hne : parts ≠ []) (name : Text) (source : Option Text)
    (span : Span) :
    (SiteNode.mk (.svelteAttribute name parts source) span).tokens =
      (SiteNode.mk (.svelteAttribute name []
        (some ("class=\"".toList ++ (value ++ ['"'])))) span).tokens := by
  have hcontent : Extract.contentTokens (.svelteAttribute name parts source) =
      Extract.contentTokens (.svelteAttribute name []
        (some ("class=\"".toList ++ (value ++ ['"'])))) := by
    unfold Extract.contentTokens
    have hparts : parts.isEmpty = false := by simpa using hne
    simp only [hparts, List.isEmpty_nil, if_true, Bool.false_eq_true, if_false, Option.map_some,
      Option.getD_some, h.sourceTokens_eq]
  unfold SiteNode.tokens
  rw [hcontent]
  rfl

/-- Tags at both ends, and texts that look like an attribute and hold a stray brace. -/
def trickyParts : List SveltePart :=
  [.tag (.identifier "a".toList), .text "-x\x7d class= y ".toList,
    .tag (.identifier "class=b\\".toList), .text " class = ".toList]

theorem parts_tokens_eq_source_tokens_tricky :
    WritesParts trickyParts "\x7ba\x7d-x\x7d class= y \x7bclass=b\\\x7d class = ".toList ∧
      (SiteNode.mk (.svelteAttribute "class".toList trickyParts none) {}).tokens =
        (SiteNode.mk (.svelteAttribute "class".toList [] (some
          "class=\"\x7ba\x7d-x\x7d class= y \x7bclass=b\\\x7d class = \"".toList)) {}).tokens ∧
      ((SiteNode.mk (.svelteAttribute "class".toList trickyParts none) {}).tokens.map
        fun token => (token.value, token.dynamic)) =
        [("-x\x7d".toList, true), ("class=".toList, false), ("y".toList, false),
          ("class".toList, false), ("=".toList, false)] := by
  have hwrites : WritesParts trickyParts
      "\x7ba\x7d-x\x7d class= y \x7bclass=b\\\x7d class = ".toList :=
    .tag (by decide) (.text (by decide) (by simp)
      (.tag (by decide) (.text (by decide) (by simp) .nil)))
  exact ⟨hwrites, parts_tokens_eq_source_tokens hwrites (by simp [trickyParts]) _ none {},
    by decide +kernel⟩

end SiteNode

end ClassAudit
