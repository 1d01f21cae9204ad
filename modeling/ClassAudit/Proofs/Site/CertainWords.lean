import ClassAudit.Proofs.Site.ClassExpressions
/-!
# The words that are certainly there

A template whose interpolations are identifiers evaluates to its texts with
unknown values between them.  Some of its words are there whatever the values
are: those that stand in one text and touch no interpolation.  In texts without
groups and escapes these are exactly the tokens that are found literally.  One
value for every interpolation tells the others apart: a value without blanks
that is longer than the word in question, so that the word reaches into none.
-/

namespace ClassAudit

namespace Text

theorem words_ne_nil {text : Text} {c : Char} (hmem : c ∈ text) (hc : isBlank c = false) :
    words text ≠ [] := by
  intro hnone
  have hspaced := ClassList.spaced_words_append (List.forall_mem_nil _) text
  rw [List.nil_append, hnone] at hspaced
  cases hspaced with
  | nil hblanks =>
    rw [hblanks c hmem] at hc
    cases hc

theorem endsBlank_of_append {front text : Text} (hne : text ≠ [])
    (h : (front ++ text).endsBlank = true) : text.endsBlank = true := by
  by_contra hends
  rw [endsBlank_append hne (Bool.eq_false_iff.2 hends)] at h
  cases h

theorem startsBlank_of_append {text back : Text} (hne : text ≠ [])
    (h : (text ++ back).startsBlank = true) : text.startsBlank = true := by
  by_contra hstarts
  rw [startsBlank_append hne (Bool.eq_false_iff.2 hstarts)] at h
  cases h

/-! ## Words that touch nothing around their text -/

/-- A word stands in a text between blanks, or at an end of the text that nothing touches. -/
def Stands (word text : Text) (touchedBefore touchedAfter : Bool) : Prop :=
  ∃ front back, text = front ++ (word ++ back) ∧
    (front = [] ∧ touchedBefore = false ∨ front.endsBlank = true) ∧
    (back = [] ∧ touchedAfter = false ∨ back.startsBlank = true)

theorem stands_of_mem_words {word text : Text} (h : word ∈ words text) :
    Stands word text false false := by
  obtain ⟨before, after, hwords⟩ := List.append_of_mem h
  have hspaced := ClassList.spaced_words_append (List.forall_mem_nil _) text
  rw [List.nil_append, hwords] at hspaced
  obtain ⟨front, back, htext, hfront, hback⟩ :=
    hspaced.exists_cut (ne_nil_of_mem_words h) (unblank_of_mem_words h)
  refine ⟨front, back, htext, ?_, ?_⟩
  · exact hfront.imp (fun hnone => ⟨hnone.1, rfl⟩) id
  · exact hback.imp (fun hnone => ⟨hnone.1, rfl⟩) id

/-- A word that starts in front of a longer run without blanks, and ends at a blank, ends in front
of the run too. -/
theorem exists_gap_of_append_eq {word back front run rest : Text}
    (hback : back = [] ∨ back.startsBlank = true) (hrun : ∀ c ∈ run, isBlank c = false)
    (hlength : word.length < run.length) (h : word ++ back = front ++ (run ++ rest)) :
    ∃ gap, front = word ++ gap ∧ gap.startsBlank = true := by
  -- What follows the word is not the end of the run.
  have hinside : ∀ inner left : Text, left ≠ [] → run = inner ++ left → back ≠ left ++ rest := by
    rintro inner left hne rfl rfl
    rcases hback with hnone | hstarts
    · exact hne (List.append_eq_nil_iff.1 hnone).1
    · have hblank := startsBlank_of_append hne hstarts
      rw [startsBlank_of_unblank fun c hc => hrun c (by simp [hc])] at hblank
      cases hblank
  rcases List.append_eq_append_iff.1 h with ⟨gap, hfront, hrest⟩ | ⟨tail, hword, hrest⟩
  · have hne : gap ≠ [] := by
      rintro rfl
      exact hinside [] run (List.ne_nil_of_length_pos (by omega)) rfl hrest
    refine ⟨gap, hfront, ?_⟩
    rcases hback with hnone | hstarts
    · rw [hnone] at hrest
      exact absurd (List.append_eq_nil_iff.1 hrest.symm).1 hne
    · rw [hrest] at hstarts
      exact startsBlank_of_append hne hstarts
  · have hcount := congrArg List.length hword
    rw [List.length_append] at hcount
    rcases List.append_eq_append_iff.1 hrest with ⟨more, htail, -⟩ | ⟨left, hsplit, hbehind⟩
    · rw [htail, List.length_append] at hcount
      omega
    · have hne : left ≠ [] := by
        rintro rfl
        rw [hsplit, List.append_nil] at hlength
        omega
      exact absurd hbehind (hinside tail left hne hsplit)

/-- A longer run without blanks parts a text in two, and touches both: a word stands in one. -/
theorem Stands.of_append_run {word front run back : Text} {touchedBefore touchedAfter : Bool}
    (h : Stands word (front ++ (run ++ back)) touchedBefore touchedAfter) (hne : word ≠ [])
    (hrun : ∀ c ∈ run, isBlank c = false) (hlength : word.length < run.length) :
    Stands word front touchedBefore true ∨ Stands word back true touchedAfter := by
  obtain ⟨left, right, htext, hleft, hright⟩ := h
  have hend : right = [] ∨ right.startsBlank = true := hright.imp And.left id
  -- What stands before the word does not end inside the run.
  have hinside : ∀ before inner : Text, inner ≠ [] → (∀ c ∈ inner, isBlank c = false) →
      left ≠ before ++ inner := by
    rintro before inner hinner hunblank rfl
    rcases hleft with ⟨hnone, -⟩ | hends
    · exact hinner (List.append_eq_nil_iff.1 hnone).2
    · have hblank := endsBlank_of_append hinner hends
      rw [endsBlank_of_unblank hunblank] at hblank
      cases hblank
  rcases List.append_eq_append_iff.1 htext with ⟨inner, hbefore, hrest⟩ | ⟨rest, hfront, hrest⟩
  · rcases List.append_eq_append_iff.1 hrest with ⟨gap, hgap, hback⟩ | ⟨later, hsplit, hword⟩
    · have hsome : gap ≠ [] := by
        rintro rfl
        rw [List.append_nil] at hgap
        rw [hgap] at hbefore
        exact hinside front run (List.ne_nil_of_length_pos (by omega)) hrun hbefore
      refine .inr ⟨gap, right, hback, .inr ?_, hright⟩
      rcases hleft with ⟨hnone, -⟩ | hends
      · rw [hnone, hgap] at hbefore
        simp [hsome] at hbefore
      · rw [hbefore, hgap, ← List.append_assoc] at hends
        exact endsBlank_of_append hsome hends
    · have hnone : inner = [] := by
        by_contra hinner
        exact hinside front inner hinner (fun c hc => hrun c (by simp [hsplit, hc])) hbefore
      rw [hnone, List.nil_append] at hsplit
      rw [← hsplit, ← List.nil_append (run ++ back)] at hword
      obtain ⟨gap, hempty, -⟩ := exists_gap_of_append_eq hend hrun hlength hword
      exact absurd (List.append_eq_nil_iff.1 hempty.symm).1 hne
  · obtain ⟨gap, hword, hstarts⟩ := exists_gap_of_append_eq hend hrun hlength hrest
    refine .inl ⟨left, gap, ?_, hleft, .inr hstarts⟩
    rw [hfront, hword]

end Text

namespace ClassList

theorem tokensFrom_eq_words {current text : Text}
    (hplain : ∀ c ∈ text, c ∉ ['[', ']', '(', ')', '\\'])
    (hcurrent : ∀ c ∈ current, Text.isBlank c = false) :
    tokensFrom { current := current } text = Text.words (current.reverse ++ text) := by
  have htoken : ∀ {current : Text}, (∀ c ∈ current, Text.isBlank c = false) →
      Reader.token { current := current } = Text.words current.reverse := by
    intro current hcurrent
    by_cases hne : current = []
    · rw [hne]
      rfl
    · rw [Text.words_eq_singleton (by simpa using hne) (by simpa using hcurrent)]
      simp [Reader.token, hne]
  induction text generalizing current with
  | nil =>
    rw [List.append_nil]
    exact htoken hcurrent
  | cons c text ih =>
    have hc : c ∉ ['[', ']', '(', ')'] ∧ c ≠ '\\' := by
      simpa [not_or, and_assoc] using hplain c (by simp)
    have hrest : ∀ d ∈ text, d ∉ ['[', ']', '(', ')', '\\'] :=
      fun d hd => hplain d (by simp [hd])
    by_cases hblank : Text.isBlank c = true
    · rw [tokensFrom_blank hblank, htoken hcurrent, ih hrest (List.forall_mem_nil _),
        Text.words_append_blank hblank]
      rfl
    · rw [tokensFrom_cons hc.2, nest_of_ne hc.1, Bool.eq_false_iff.2 hblank]
      simp only [Bool.false_and, Bool.false_eq_true, if_false, Reader.keep]
      rw [ih hrest, List.reverse_cons, ← List.append_cons]
      simp only [List.forall_mem_cons]
      exact ⟨Bool.eq_false_iff.2 hblank, hcurrent⟩

/-- Without groups and escapes, the tokens of a class list are its words. -/
theorem tokens_eq_words {text : Text} (hplain : ∀ c ∈ text, c ∉ ['[', ']', '(', ')', '\\']) :
    tokens text = Text.words text :=
  tokensFrom_eq_words hplain (List.forall_mem_nil _)

end ClassList

namespace Extract

open Text

theorem mem_textTokens_of_cut {content token : Text} {touchedBefore touchedAfter : Bool}
    {before after : List Text} (htokens : ClassList.tokens content = before ++ token :: after)
    (hbefore : (touchedBefore && !content.startsBlank) = true → before ≠ [])
    (hafter : (touchedAfter && !content.endsBlank) = true → after ≠ []) :
    (token, false) ∈ textTokens content touchedBefore touchedAfter := by
  unfold textTokens
  rw [htokens]
  generalize (touchedBefore && !content.startsBlank) = follows at hbefore ⊢
  generalize (touchedAfter && !content.endsBlank) = precedes at hafter ⊢
  -- The token is not the last one where the last one is left out.
  obtain ⟨rest, hwhole⟩ : ∃ rest, (if precedes then (before ++ token :: after).dropLast
      else before ++ token :: after) = before ++ token :: rest := by
    cases precedes with
    | false => exact ⟨after, rfl⟩
    | true =>
      refine ⟨after.dropLast, ?_⟩
      rw [if_pos rfl, List.dropLast_append_cons, List.dropLast_cons_of_ne_nil (hafter rfl)]
  have hmarked : (token, false) ∈ (before ++ token :: rest).mapIdx
      fun index token => (token, follows && index == 0) := by
    have hfirst : (follows && before.length == 0) = false := by
      cases follows with
      | false => rfl
      | true => simpa using hbefore rfl
    rw [List.mapIdx_append, List.mapIdx_cons, Nat.zero_add, hfirst]
    simp
  simp only [hwhole]
  split
  · split
    · exact List.mem_append_left _ hmarked
    · exact hmarked
  · rename_i hnone
    simp at hnone

/-- A word that stands in a text is found there literally. -/
theorem mem_textTokens_of_stands {word content : Text} {touchedBefore touchedAfter : Bool}
    (h : Stands word content touchedBefore touchedAfter) (hne : word ≠ [])
    (hword : ∀ c ∈ word, isBlank c = false)
    (hplain : ∀ c ∈ content, c ∉ ['[', ']', '(', ')', '\\']) :
    (word, false) ∈ textTokens content touchedBefore touchedAfter := by
  obtain ⟨front, back, rfl, hfront, hback⟩ := h
  have htokens : ClassList.tokens (front ++ (word ++ back)) =
      words front ++ word :: words back := by
    have hleft : Apart front (word ++ back) := hfront.imp And.left Or.inl
    have hright : Apart word back := .inr (.inr (hback.imp And.left id))
    rw [ClassList.tokens_eq_words hplain, words_append_of_apart hleft,
      words_append_of_apart hright, words_eq_singleton hne hword]
    rfl
  apply mem_textTokens_of_cut htokens
  · intro hfollows
    obtain ⟨htouched, hstart⟩ := Bool.and_eq_true_iff.1 hfollows
    rcases hfront with ⟨-, huntouched⟩ | hends
    · rw [htouched] at huntouched
      cases huntouched
    · cases front with
      | nil => cases hends
      | cons c front =>
        exact words_ne_nil List.mem_cons_self (by simpa [startsBlank] using hstart)
  · intro hprecedes
    obtain ⟨htouched, hend⟩ := Bool.and_eq_true_iff.1 hprecedes
    rcases hback with ⟨-, huntouched⟩ | hstarts
    · rw [htouched] at huntouched
      cases huntouched
    · rcases List.eq_nil_or_concat back with rfl | ⟨inner, c, rfl⟩
      · cases hstarts
      · rw [List.concat_eq_append, ← List.append_assoc, ← List.append_assoc] at hend
        have hmem : c ∈ inner.concat c := by simp
        exact words_ne_nil hmem (by simpa [endsBlank] using hend)

/-! ## Templates of identifiers -/

theorem eachTokens_identifiers (names : List Text) :
    eachTokens (names.map .identifier) = names.map fun _ => [] := by
  induction names with
  | nil => rfl
  | cons name names ih => simp [eachTokens, valueTokens, ih]

/-- A word that stands in what a template evaluates to, each of its interpolations to a run that
is longer than the word, is found literally in one of the texts. -/
theorem mem_visibleTokens_of_stands {word run : Text} (hne : word ≠ [])
    (hword : ∀ c ∈ word, isBlank c = false) (hrun : ∀ c ∈ run, isBlank c = false)
    (hlength : word.length < run.length) {names texts : List Text}
    (hcount : texts.length = names.length + 1)
    (hplain : ∀ text ∈ texts, ∀ c ∈ text, c ∉ ['[', ']', '(', ')', '\\']) {touched : Bool}
    (h : Stands word (Expr.weave texts (names.map fun _ => run)).flatten touched false) :
    (word, false) ∈ visibleTokens touched
      ((templatePieces texts (names.map fun _ => [])).filter Piece.isVisible) := by
  -- A text without anything in it holds no word.
  have hsome : ∀ {text : Text} {before after : Bool}, Stands word text before after →
      text ≠ [] := by
    rintro text before after ⟨front, back, rfl, -, -⟩
    simp [hne]
  have htext : ∀ {text : Text} {before after : Bool}, text ∈ texts →
      Stands word text before after → (word, false) ∈ textTokens text before after :=
    fun hmem hstands => mem_textTokens_of_stands hstands hne hword (hplain _ hmem)
  induction names generalizing texts touched with
  | nil =>
    obtain ⟨text, rfl⟩ := List.length_eq_one_iff.1 hcount
    have hstands : Stands word text touched false := by simpa [Expr.weave] using h
    have hvisible : (Piece.text text).isVisible = true := by
      simpa [Piece.isVisible] using hsome hstands
    rw [List.map_nil, templatePieces, templatePieces, List.filter_cons_of_pos hvisible,
      List.filter_nil, visibleTokens, List.mem_append]
    exact .inl (htext (by simp) hstands)
  | cons name names ih =>
    obtain ⟨text, texts, rfl⟩ : ∃ text rest, texts = text :: rest :=
      List.exists_cons_of_length_pos (by omega)
    have hinterpolation : (Piece.interpolation []).isVisible = true := rfl
    rw [List.map_cons, Expr.weave, List.flatten_cons, List.flatten_cons] at h
    rw [List.map_cons, templatePieces]
    rcases h.of_append_run hne hrun hlength with hhere | hlater
    · have hvisible : (Piece.text text).isVisible = true := by
        simpa [Piece.isVisible] using hsome hhere
      rw [List.filter_cons_of_pos hvisible, List.filter_cons_of_pos hinterpolation, visibleTokens,
        List.mem_append]
      exact .inl (htext (by simp) hhere)
    · have hrest := ih (by simpa using hcount)
        (fun other hother => hplain other (by simp [hother])) hlater
        fun hmem => htext (by simp [hmem])
      have hnext : ∀ before, (word, false) ∈ visibleTokens before (.interpolation [] ::
          (templatePieces texts (names.map fun _ => [])).filter Piece.isVisible) := by
        intro before
        rw [visibleTokens, List.mem_append]
        exact .inr hrest
      by_cases hvisible : (Piece.text text).isVisible = true
      · rw [List.filter_cons_of_pos hvisible, List.filter_cons_of_pos hinterpolation,
          visibleTokens, List.mem_append]
        exact .inr (hnext _)
      · rw [List.filter_cons_of_neg hvisible, List.filter_cons_of_pos hinterpolation]
        exact hnext _

theorem mem_visibleTokens {token : Text} {pieces : List Piece} {touched : Bool}
    (h : (token, false) ∈ visibleTokens touched pieces) :
    (∃ content, .text content ∈ pieces ∧ token ∈ ClassList.tokens content) ∨
      ∃ tokens, .interpolation tokens ∈ pieces ∧ (token, false) ∈ tokens := by
  induction pieces generalizing touched with
  | nil => exact absurd h List.not_mem_nil
  | cons piece pieces ih =>
    rw [visibleTokens, List.mem_append] at h
    rcases h with hhere | hlater
    · cases piece with
      | text content =>
        obtain ⟨before, after, htokens, -, -⟩ := exists_cut_of_mem_textTokens hhere
        exact .inl ⟨content, by simp, by simp [htokens]⟩
      | interpolation tokens =>
        rw [pieceTokens] at hhere
        split at hhere
        · exact absurd hhere List.not_mem_nil
        · exact .inr ⟨tokens, by simp, hhere⟩
    · rcases ih hlater with ⟨content, hmem, htoken⟩ | ⟨tokens, hmem, htoken⟩
      · exact .inl ⟨content, by simp [hmem], htoken⟩
      · exact .inr ⟨tokens, by simp [hmem], htoken⟩

theorem mem_templatePieces {texts : List Text} {found : List (List Found)} {piece : Piece}
    (h : piece ∈ templatePieces texts found) :
    (∃ text ∈ texts, piece = .text text) ∨ ∃ tokens ∈ found, piece = .interpolation tokens := by
  fun_induction templatePieces texts found with
  | case1 found => exact absurd h List.not_mem_nil
  | case2 text texts ih =>
    rcases List.mem_cons.1 h with rfl | h
    · exact .inl ⟨text, by simp, rfl⟩
    · obtain ⟨other, hother, rfl⟩ := (ih h).resolve_right (by simp)
      exact .inl ⟨other, by simp [hother], rfl⟩
  | case3 text texts tokens rest ih =>
    rcases List.mem_cons.1 h with rfl | h
    · exact .inl ⟨text, by simp, rfl⟩
    rcases List.mem_cons.1 h with rfl | h
    · exact .inr ⟨tokens, by simp, rfl⟩
    rcases ih h with ⟨other, hother, rfl⟩ | ⟨other, hother, rfl⟩
    · exact .inl ⟨other, by simp [hother], rfl⟩
    · exact .inr ⟨other, by simp [hother], rfl⟩

/-- What is found literally in a template of identifiers is a token of one of its texts. -/
theorem exists_text_of_mem_visibleTokens {texts names : List Text} {token : Text} {touched : Bool}
    (h : (token, false) ∈ visibleTokens touched
      ((templatePieces texts (names.map fun _ => [])).filter Piece.isVisible)) :
    ∃ text ∈ texts, token ∈ ClassList.tokens text := by
  rcases mem_visibleTokens h with ⟨content, hmem, htoken⟩ | ⟨tokens, hmem, htoken⟩
  · rcases mem_templatePieces (List.mem_filter.1 hmem).1 with ⟨text, htext, heq⟩ | ⟨_, -, heq⟩
    · cases heq
      exact ⟨content, htext, htoken⟩
    · cases heq
  · rcases mem_templatePieces (List.mem_filter.1 hmem).1 with ⟨_, -, heq⟩ | ⟨_, hfound, heq⟩
    · cases heq
    · cases heq
      obtain ⟨name, -, rfl⟩ := List.mem_map.1 hfound
      exact absurd htoken List.not_mem_nil

/-- What is found literally in a template of identifiers is a word of all its values. -/
theorem mem_words_weave {texts names : List Text} {word : Text}
    (hplain : ∀ text ∈ texts, ∀ c ∈ text, c ∉ ['[', ']', '(', ')', '\\'])
    (h : (word, false) ∈ visibleTokens false
      ((templatePieces texts (names.map fun _ => [])).filter Piece.isVisible))
    {values : List Text} (hvalues : values.length = names.length) :
    word ∈ words (Expr.weave texts values).flatten := by
  have hword : ∀ c ∈ word, isBlank c = false := by
    obtain ⟨text, htext, htoken⟩ := exists_text_of_mem_visibleTokens h
    rw [ClassList.tokens_eq_words (hplain text htext)] at htoken
    exact unblank_of_mem_words htoken
  have hnone : List.Forall₂ (fun tokens value => (word, false) ∈ tokens → word ∈ words value)
      (names.map fun _ => []) values := by
    rw [List.forall₂_map_left_iff, List.forall₂_iff_get]
    exact ⟨hvalues.symm, fun _ _ _ hmem => absurd hmem List.not_mem_nil⟩
  exact mem_words_of_mem_visibleTokens hword (shows_templatePieces hnone texts) h fun _ => .inl rfl

/-- A word of all values of a template of identifiers is found there literally. -/
theorem mem_visibleTokens_of_forall {texts names : List Text} {word : Text}
    (hcount : texts.length = names.length + 1)
    (hplain : ∀ text ∈ texts, ∀ c ∈ text, c ∉ ['[', ']', '(', ')', '\\'])
    (h : ∀ values : List Text, values.length = names.length →
      word ∈ words (Expr.weave texts values).flatten) :
    (word, false) ∈ visibleTokens false
      ((templatePieces texts (names.map fun _ => [])).filter Piece.isVisible) := by
  -- No character need be left that the word and the texts lack, so the run is told by its length.
  let run : Text := List.replicate (word.length + 1) 'x'
  have hrun : ∀ c ∈ run, isBlank c = false := by
    intro c hc
    rw [List.eq_of_mem_replicate hc]
    decide
  have hlength : word.length < run.length := by simp [run]
  have hmem := h (names.map fun _ => run) (by simp)
  exact mem_visibleTokens_of_stands (ne_nil_of_mem_words hmem) (unblank_of_mem_words hmem) hrun
    hlength hcount hplain (stands_of_mem_words hmem)

end Extract

namespace SiteNode

/-- A word is a literal token of a class attribute exactly if the template that is its value has
the word whatever the interpolations evaluate to. -/
theorem exists_literal_token_iff {texts names : List Text}
    (hcount : texts.length = names.length + 1)
    (hplain : ∀ text ∈ texts, ∀ c ∈ text, c ∉ ['[', ']', '(', ')', '\\']) {value : Expr}
    (hvalue : value = .template texts (names.map .identifier) ∨
      value = .container (.template texts (names.map .identifier))) (span : Span) (word : Text) :
    (∃ token ∈ (SiteNode.mk (.jsxAttribute "className".toList (some value)) span).tokens,
        token.dynamic = false ∧ token.value = word) ↔
      ∀ values : List Text, values.length = names.length →
        word ∈ Text.words (Expr.weave texts values).flatten := by
  have hattribute : Extract.jsxAttributes.contains "className".toList = true := by decide
  have htokens : Extract.contentTokens (.jsxAttribute "className".toList (some value)) =
      Extract.visibleTokens false
        ((Extract.templatePieces texts (names.map fun _ => [])).filter
          Extract.Piece.isVisible) := by
    simp only [Extract.contentTokens, hattribute, if_true, Option.map_some, Option.getD_some]
    rw [← Extract.eachTokens_identifiers, ← Extract.interpolatedTokens]
    rcases hvalue with rfl | rfl
    · rw [Extract.valueTokens]
    · rw [Extract.valueTokens, Extract.valueTokens]
  unfold SiteNode.tokens
  rw [htokens]
  constructor
  · rintro ⟨token, hmem, hliteral, rfl⟩ values hvalues
    obtain ⟨found, hfound, rfl⟩ := List.mem_map.1 hmem
    have hpair : found = (found.1, false) := Prod.ext rfl hliteral
    rw [hpair] at hfound
    exact Extract.mem_words_weave hplain hfound hvalues
  · intro hall
    have hfound := Extract.mem_visibleTokens_of_forall hcount hplain hall
    exact ⟨_, List.mem_map.2 ⟨(word, false), hfound, rfl⟩, rfl, rfl⟩

/-- Texts glued on one side and on both, a text between blanks only, and an empty one. -/
def cardTexts : List Text := Text.table ["btn ", "w-", " ", "px big up-", "", " end"]

def cardNames : List Text := Text.table ["x", "y", "x", "z", "y"]

theorem exists_literal_token_iff_card :
    cardTexts.length = cardNames.length + 1 ∧
      (∀ text ∈ cardTexts, ∀ c ∈ text, c ∉ ['[', ']', '(', ')', '\\']) ∧
      ((SiteNode.mk (.jsxAttribute "className".toList (some
        (.container (.template cardTexts (cardNames.map .identifier))))) {}).tokens.map
          fun token => (token.value, token.dynamic)) =
        [("btn".toList, false), ("w-".toList, true), ("px".toList, true), ("big".toList, false),
          ("up-".toList, true), ("end".toList, false)] ∧
      ∀ word, (∃ token ∈ (SiteNode.mk (.jsxAttribute "className".toList (some
          (.container (.template cardTexts (cardNames.map .identifier))))) {}).tokens,
          token.dynamic = false ∧ token.value = word) ↔
        ∀ values : List Text, values.length = cardNames.length →
          word ∈ Text.words (Expr.weave cardTexts values).flatten := by
  have hplain : ∀ text ∈ cardTexts, ∀ c ∈ text, c ∉ ['[', ']', '(', ')', '\\'] := by decide
  exact ⟨rfl, hplain, by decide +kernel,
    exists_literal_token_iff rfl hplain (.inr rfl) {}⟩

end SiteNode

end ClassAudit
