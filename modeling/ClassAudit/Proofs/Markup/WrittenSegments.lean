import ClassAudit.Proofs.Markup.BracedTexts
import ClassAudit.Proofs.Text.Nesting
import Mathlib.Data.List.Chain
/-!
# Segments and their text

A text is a run without braces, an expression that is closed and another text,
or it holds no closed expression and is all one segment.  So its segments write
the text again, and nothing but the last of them can hold a brace that opens
nothing.  The other way round, texts and expressions that fit together are the
segments of what they write.  An expression fits if its strings are closed and
its braces outside of them pair up.
-/

namespace ClassAudit.Mustache

/-! ## The bodies of expressions -/

/-- What stands outside of the strings of an expression, from inside the string that a quote ends
or from outside on; none if a string is not closed. -/
def unquotedFrom? : Option Char → Text → Option Text
  | none, [] => some []
  | some _, [] => none
  | none, c :: rest =>
    if isQuote c then unquotedFrom? (some c) rest else (unquotedFrom? none rest).map (c :: ·)
  | some quote, '\\' :: _ :: rest => unquotedFrom? (some quote) rest
  | some quote, c :: rest =>
    if c = quote then unquotedFrom? none rest else unquotedFrom? (some quote) rest

/-- The strings of an expression are closed, and its braces outside of them pair up. -/
def Fits (content : Text) : Prop :=
  ∃ plain, unquotedFrom? none content = some plain ∧ Text.Nests '{' '}' 0 plain ∧
    plain.count '{' = plain.count '}'

theorem Inside.run_cons (place : Inside) (c : Char) (text : Text) :
    place.run (c :: text) = (place.step c).bind fun next => next.run text :=
  List.foldlM_cons

/-- A brace outside of strings, and any other character there, counts in the same way for the run
and for what stands outside of strings. -/
theorem run_unquoted_iff {depth : Nat} {c : Char} {rest : Text} (hquote : isQuote c = false)
    (ih : ∀ depth, Inside.run ⟨depth, none, false⟩ rest = some {} ↔
      ∃ plain, unquotedFrom? none rest = some plain ∧ Text.Nests '{' '}' depth plain ∧
        depth + plain.count '{' = plain.count '}') :
    Inside.run ⟨depth, none, false⟩ (c :: rest) = some {} ↔
      ∃ plain, unquotedFrom? none rest = some plain ∧ Text.Nests '{' '}' depth (c :: plain) ∧
        depth + (c :: plain).count '{' = (c :: plain).count '}' := by
  have hstep : Inside.step ⟨depth, none, false⟩ c =
      if c = '{' then some ⟨depth + 1, none, false⟩
      else if c = '}' then if depth = 0 then none else some ⟨depth - 1, none, false⟩
      else some ⟨depth, none, false⟩ := by
    simp [Inside.step, hquote]
  rw [Inside.run_cons, hstep]
  by_cases hopen : c = '{'
  · subst hopen
    simp only [if_true, Option.bind_some, ih, Text.nests_open_iff (show '{' ≠ '}' by decide),
      List.count_cons_self, List.count_cons_of_ne (show '{' ≠ '}' by decide),
      Nat.add_right_comm depth 1, Nat.add_assoc]
  · rw [if_neg hopen]
    by_cases hclose : c = '}'
    · subst hclose
      simp only [if_true, Text.nests_close_iff (show '{' ≠ '}' by decide), List.count_cons_self,
        List.count_cons_of_ne (show '}' ≠ '{' by decide)]
      cases depth with
      | zero => simp
      | succ depth =>
        simp only [Nat.succ_ne_zero, if_false, Option.bind_some, Nat.add_sub_cancel, ih,
          Nat.succ_pos, true_and, Nat.add_right_comm depth 1, Nat.add_right_cancel_iff]
    · simp only [if_neg hclose, Option.bind_some, ih, Text.nests_other_iff hopen hclose,
        List.count_cons_of_ne hopen, List.count_cons_of_ne hclose]

/-- A text runs to the end of the braces around it if what it holds outside of strings does. -/
theorem run_eq_start_iff {quote : Option Char} (hquote : ∀ q ∈ quote, isQuote q = true)
    (depth : Nat) (content : Text) :
    Inside.run ⟨depth, quote, false⟩ content = some {} ↔
      ∃ plain, unquotedFrom? quote content = some plain ∧ Text.Nests '{' '}' depth plain ∧
        depth + plain.count '{' = plain.count '}' := by
  fun_induction unquotedFrom? quote content generalizing depth with
  | case1 =>
    constructor
    · intro h
      obtain ⟨rfl, -⟩ := Inside.mk.inj (Option.some.inj h)
      exact ⟨[], rfl, Text.nests_nil, rfl⟩
    · rintro ⟨plain, hplain, -, hcount⟩
      obtain rfl := Option.some.inj hplain
      obtain rfl : depth = 0 := hcount
      rfl
  | case2 quote =>
    constructor
    · intro h
      cases h
    · rintro ⟨plain, hplain, -⟩
      cases hplain
  | case3 c rest hc ih =>
    have hstep : Inside.step ⟨depth, none, false⟩ c = some ⟨depth, some c, false⟩ := by
      simp [Inside.step, hc]
    rw [Inside.run_cons, hstep]
    exact ih (by simpa using hc) depth
  | case4 c rest hc ih =>
    rw [run_unquoted_iff (Bool.eq_false_iff.2 hc) (ih hquote)]
    simp only [Option.map_eq_some_iff, exists_exists_and_eq_and]
  | case5 quote escaped rest ih => exact ih hquote depth
  | case6 c rest hescape ih =>
    have hc : c ≠ '\\' := by
      rintro rfl
      exact absurd (hquote _ rfl) (by decide)
    have hstep : Inside.step ⟨depth, some c, false⟩ c = some ⟨depth, none, false⟩ := by
      simp [Inside.step, hc]
    rw [Inside.run_cons, hstep]
    exact ih (by simp) depth
  | case7 quote c rest hescape hne ih =>
    by_cases hc : c = '\\'
    · cases rest with
      | nil =>
        rw [hc]
        constructor
        · intro h
          cases h
        · rintro ⟨plain, hplain, -⟩
          cases hplain
      | cons d rest => exact absurd rfl (hescape d rest hc)
    · have hstep : Inside.step ⟨depth, some quote, false⟩ c = some ⟨depth, some quote, false⟩ := by
        simp [Inside.step, hc, hne]
      rw [Inside.run_cons, hstep]
      exact ih hquote depth

theorem isBody_iff_fits {content : Text} : IsBody content ↔ Fits content := by
  have hrun := @run_eq_start_iff none (by simp) 0 content
  simp only [Nat.zero_add] at hrun
  exact hrun

/-! ## Texts with and without closed expressions -/

theorem Inside.step_eq_none_iff {place : Inside} {c : Char} :
    place.step c = none ↔ place.quote = none ∧ place.depth = 0 ∧ c = '}' := by
  have hclose : isQuote '}' = false := by decide
  unfold Inside.step
  grind

theorem Inside.escaped_step {place next : Inside}
    (hplace : place.quote = none → place.escaped = false) {c : Char}
    (h : place.step c = some next) (hnext : next.quote = none) : next.escaped = false := by
  unfold Inside.step at h
  grind

theorem Inside.escaped_run {place next : Inside}
    (hplace : place.quote = none → place.escaped = false) {text : Text}
    (h : place.run text = some next) (hnext : next.quote = none) : next.escaped = false := by
  induction text generalizing place with
  | nil =>
    obtain rfl := Option.some.inj h
    exact hplace hnext
  | cons c text ih =>
    obtain ⟨middle, hstep, hlater⟩ := exists_step_of_run_cons h
    exact ih (escaped_step hplace hstep) hlater

/-- A text behind a brace closes it, or runs to its end inside of it. -/
theorem runs_or_exists_close (place : Inside) (text : Text) :
    (∃ next, place.run text = some next) ∨ ∃ content c rest middle, text = content ++ c :: rest ∧
      place.run content = some middle ∧ middle.step c = none := by
  induction text generalizing place with
  | nil => exact .inl ⟨place, rfl⟩
  | cons c text ih =>
    cases hstep : place.step c with
    | none => exact .inr ⟨[], c, text, place, rfl, rfl, hstep⟩
    | some next =>
      rcases ih next with ⟨last, hlast⟩ | ⟨content, d, rest, middle, rfl, hcontent, hclose⟩
      · left
        refine ⟨last, ?_⟩
        rw [Inside.run_cons, hstep]
        exact hlast
      · right
        refine ⟨c :: content, d, rest, middle, rfl, ?_, hclose⟩
        rw [Inside.run_cons, hstep]
        exact hcontent

theorem runs_or_exists_body (text : Text) :
    (∃ next, Inside.run {} text = some next) ∨
      ∃ content rest, text = content ++ '}' :: rest ∧ IsBody content := by
  rcases runs_or_exists_close {} text with hruns | ⟨content, c, rest, middle, rfl, hrun, hclose⟩
  · exact .inl hruns
  · right
    -- What closes the brace is met outside of strings, where nothing is escaped.
    obtain ⟨hquote, hdepth, rfl⟩ := Inside.step_eq_none_iff.1 hclose
    have hescaped := Inside.escaped_run (by simp) hrun hquote
    obtain ⟨depth, quote, escaped⟩ := middle
    obtain rfl : depth = 0 := hdepth
    obtain rfl : quote = none := hquote
    obtain rfl : escaped = false := hescaped
    exact ⟨content, rest, rfl, hrun⟩

theorem segments_without_brace {text : Text} (h : '{' ∉ text) :
    segments text = textSegment text.reverse := by
  have hread := segmentsFrom_text h [] []
  rwa [List.append_nil, List.append_nil] at hread

theorem segments_unclosed {front rest : Text} (hfront : '{' ∉ front) {next : Inside}
    (hrest : Inside.run {} rest = some next) :
    segments (front ++ '{' :: rest) = textSegment (front ++ '{' :: rest).reverse := by
  have hread := expressionFrom_append hrest front.reverse [] []
  rw [List.append_nil, List.append_nil, expressionFrom] at hread
  rw [segments, segmentsFrom_text hfront, List.append_nil, segmentsFrom, if_pos rfl, hread]
  simp

theorem segments_expression {front content : Text} (hfront : '{' ∉ front)
    (hcontent : IsBody content) (rest : Text) :
    segments (front ++ '{' :: (content ++ '}' :: rest)) =
      textSegment front.reverse ++ .expression content :: segments rest := by
  rw [segments, segmentsFrom_text hfront, List.append_nil, segmentsFrom_expression hcontent]
  rfl

/-- A text is one segment, or it starts with a text without braces and an expression. -/
@[elab_as_elim]
theorem segment_induction {motive : Text → Prop}
    (whole : ∀ text, segments text = textSegment text.reverse → motive text)
    (expression : ∀ front content rest, '{' ∉ front → IsBody content → motive rest →
      motive (front ++ '{' :: (content ++ '}' :: rest)))
    (text : Text) : motive text := by
  induction hlength : text.length using Nat.strongRecOn generalizing text with
  | ind length ih =>
    cases hcut : Text.cut? '{' text with
    | none => exact whole text (segments_without_brace (Text.cut?_eq_none_iff.1 hcut))
    | some parts =>
      obtain ⟨front, behind⟩ := parts
      obtain ⟨rfl, hfront⟩ := Text.cut?_eq_some_iff.1 hcut
      rcases runs_or_exists_body behind with ⟨next, hnext⟩ | ⟨content, rest, rfl, hcontent⟩
      · exact whole _ (segments_unclosed hfront hnext)
      · have hrest : rest.length < length := by
          simp only [List.length_append, List.length_cons] at hlength
          omega
        exact expression front content rest hfront hcontent (ih _ hrest rest rfl)

/-! ## Segments that fit together -/

/-- Whether a segment is text. -/
def Segment.isText : Segment → Bool
  | text _ => true
  | expression _ => false

/-- No two texts stand side by side. -/
def Apart (list : List Segment) : Prop :=
  list.IsChain fun segment next => ¬(segment.isText = true ∧ next.isText = true)

/-- What holds of the segments of a text. -/
structure Splits (list : List Segment) (text : Text) : Prop where
  render : list.flatMap Segment.render = text
  nonempty : ∀ content, .text content ∈ list → content ≠ []
  apart : Apart list
  unbraced : ∀ content, .text content ∈ list.dropLast → '{' ∉ content
  fits : ∀ content, .expression content ∈ list → Fits content

theorem textSegment_reverse (text : Text) :
    textSegment text.reverse = if text = [] then [] else [.text text] := by
  unfold textSegment
  rw [List.isEmpty_reverse, List.reverse_reverse]
  cases text <;> rfl

theorem Splits.whole (text : Text) : Splits (textSegment text.reverse) text := by
  rw [textSegment_reverse]
  by_cases hne : text = []
  · rw [if_pos hne, hne]
    exact ⟨rfl, by simp, .nil, by simp, by simp⟩
  · rw [if_neg hne]
    exact ⟨List.append_nil text, by simpa using hne, .singleton _, by simp, by simp⟩

theorem Splits.expression {list : List Segment} {content rest : Text} (hcontent : Fits content)
    (h : Splits list rest) :
    Splits (.expression content :: list) ('{' :: (content ++ '}' :: rest)) where
  render := by
    rw [List.flatMap_cons, h.render]
    simp [Segment.render]
  nonempty := by simpa using h.nonempty
  apart := List.isChain_cons.2 ⟨by simp [Segment.isText], h.apart⟩
  unbraced := by
    intro other hother
    cases list with
    | nil => cases hother
    | cons next list =>
      rw [List.dropLast_cons_cons] at hother
      exact h.unbraced other (by simpa using hother)
  fits := by
    intro other hother
    rcases List.mem_cons.1 hother with heq | hother
    · rw [Segment.expression.inj heq]
      exact hcontent
    · exact h.fits other hother

theorem Splits.text {list : List Segment} {front content text : Text} (hfront : '{' ∉ front)
    (h : Splits (.expression content :: list) text) :
    Splits (textSegment front.reverse ++ .expression content :: list) (front ++ text) := by
  rw [textSegment_reverse]
  by_cases hne : front = []
  · rw [if_pos hne, hne]
    exact h
  · rw [if_neg hne]
    refine ⟨?_, ?_, ?_, ?_, ?_⟩
    · rw [List.flatMap_append, h.render]
      simp [Segment.render]
    · intro other hother
      rcases List.mem_cons.1 hother with heq | hother
      · rwa [Segment.text.inj heq]
      · exact h.nonempty other hother
    · exact List.isChain_cons.2 ⟨by simp [Segment.isText], h.apart⟩
    · intro other hother
      rw [List.singleton_append, List.dropLast_cons_cons] at hother
      rcases List.mem_cons.1 hother with heq | hother
      · rwa [Segment.text.inj heq]
      · exact h.unbraced other hother
    · intro other hother
      exact h.fits other (by simpa using hother)

theorem splits_segments (text : Text) : Splits (segments text) text := by
  induction text using segment_induction with
  | whole text hwhole =>
    rw [hwhole]
    exact .whole text
  | expression front content rest hfront hcontent ih =>
    rw [segments_expression hfront hcontent]
    exact .text hfront (ih.expression (isBody_iff_fits.1 hcontent))

/-- Segments that fit together are read from what they write, behind a text that joins none. -/
theorem segmentsFrom_render {list : List Segment}
    (htexts : ∀ content, .text content ∈ list → content ≠ [] ∧ '{' ∉ content)
    (hapart : Apart list) (hfits : ∀ content, .expression content ∈ list → Fits content)
    {before : Text} (hbefore : before = [] ∨ ∀ segment ∈ list.head?, segment.isText = false) :
    segmentsFrom before (list.flatMap Segment.render) = textSegment before ++ list := by
  induction list generalizing before with
  | nil =>
    rw [List.append_nil]
    rfl
  | cons segment list ih =>
    obtain ⟨hnext, hlater⟩ := List.isChain_cons.1 hapart
    have hread := @ih (fun content hmem => htexts content (List.mem_cons_of_mem _ hmem)) hlater
      fun content hmem => hfits content (List.mem_cons_of_mem _ hmem)
    rw [List.flatMap_cons]
    cases segment with
    | text content =>
      obtain ⟨hne, hopen⟩ := htexts content List.mem_cons_self
      -- A text read before would join this one.
      obtain rfl : before = [] := hbefore.resolve_right fun hnone => Bool.noConfusion (hnone _ rfl)
      have htext : textSegment content.reverse = [.text content] := by
        rw [textSegment_reverse, if_neg hne]
      rw [Segment.render, segmentsFrom_text hopen, List.append_nil, hread, htext]
      · rfl
      · right
        intro next hmem
        simpa [Segment.isText] using hnext next hmem
    | expression content =>
      have hbody := isBody_iff_fits.2 (hfits content List.mem_cons_self)
      have hrender : (Segment.expression content).render ++ list.flatMap Segment.render =
          '{' :: (content ++ '}' :: list.flatMap Segment.render) := by
        simp [Segment.render]
      rw [hrender, segmentsFrom_expression hbody, hread (.inl rfl)]
      rfl

/-- The segments of a text write it, with no empty text, no two texts side by side, and no opening
brace in a text but the last.  Texts and expressions that fit together are the segments of what
they write. -/
theorem segments_written :
    (∀ text, Splits (segments text) text) ∧
    ∀ list, (∀ content, .text content ∈ list → content ≠ [] ∧ '{' ∉ content) → Apart list →
      (∀ content, .expression content ∈ list → Fits content) →
        segments (list.flatMap Segment.render) = list := by
  refine ⟨splits_segments, fun list htexts hapart hfits => ?_⟩
  exact segmentsFrom_render htexts hapart hfits (.inl rfl)

/-- Expressions with a brace in a string, an escaped quote and a block, and a text with a brace. -/
def bracedSegments : List Segment :=
  [.expression "a ? '\x7d' : \"\\\"\"".toList, .expression "\x7bb\x7d".toList,
    .text " \x7d'c".toList]

theorem segments_written_braced :
    (∀ content, .expression content ∈ bracedSegments → Fits content) ∧
      segments (bracedSegments.flatMap Segment.render) = bracedSegments := by
  have hfits : ∀ content, .expression content ∈ bracedSegments → Fits content := by
    intro content hmem
    simp only [bracedSegments, List.mem_cons, Segment.expression.injEq, reduceCtorEq,
      List.not_mem_nil, or_false] at hmem
    rcases hmem with rfl | rfl
    · exact isBody_iff_fits.1 rfl
    · exact isBody_iff_fits.1 rfl
  refine ⟨hfits, segments_written.2 bracedSegments ?_ ?_ hfits⟩
  · intro content hmem
    simp only [bracedSegments, List.mem_cons, Segment.text.injEq, reduceCtorEq,
      List.not_mem_nil, or_false, false_or] at hmem
    rw [hmem]
    decide
  · unfold Apart bracedSegments
    decide

end ClassAudit.Mustache
