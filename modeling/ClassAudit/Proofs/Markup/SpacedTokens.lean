import ClassAudit.Proofs.Markup.SpacedNames
/-!
# Class lists as tokens between blanks

Every class list is its tokens with blanks between them, whatever groups and
escapes the tokens hold.  So a token without a blank inside is a word of the
list, and it stays a word when other text is put in front of the list and
behind it, as long as that text does not touch the token.
-/

namespace ClassAudit

namespace Text

/-- No word of one text runs on into the other. -/
def Apart (front back : Text) : Prop :=
  front = [] ∨ front.endsBlank = true ∨ back = [] ∨ back.startsBlank = true

theorem exists_of_endsBlank {text : Text} (h : text.endsBlank = true) :
    ∃ front blank, text = front ++ [blank] ∧ isBlank blank = true := by
  obtain ⟨blank, hlast, hblank⟩ := (Option.any_eq_true _ _).1 h
  obtain ⟨front, hfront⟩ := List.getLast?_eq_some_iff.1 hlast
  exact ⟨front, blank, hfront, hblank⟩

theorem exists_of_startsBlank {text : Text} (h : text.startsBlank = true) :
    ∃ blank rest, text = blank :: rest ∧ isBlank blank = true := by
  cases text with
  | nil => exact absurd h (by decide)
  | cons blank rest => exact ⟨blank, rest, rfl, h⟩

theorem endsBlank_append_of_right {text : Text} (front : Text) (h : text.endsBlank = true) :
    (front ++ text).endsBlank = true := by
  obtain ⟨inner, blank, rfl, hblank⟩ := exists_of_endsBlank h
  rw [← List.append_assoc]
  simpa [endsBlank] using hblank

theorem startsBlank_append_of_left {text : Text} (h : text.startsBlank = true) (rest : Text) :
    (text ++ rest).startsBlank = true := by
  obtain ⟨blank, inner, rfl, hblank⟩ := exists_of_startsBlank h
  exact hblank

theorem words_append_blank {blank : Char} (hblank : isBlank blank = true) (front back : Text) :
    words (front ++ blank :: back) = words front ++ words back := by
  unfold words
  rw [List.splitOnP_append_cons front back hblank, List.filter_append]

theorem words_append_of_apart {front back : Text} (h : Apart front back) :
    words (front ++ back) = words front ++ words back := by
  have hnil : words [] = [] := rfl
  rcases h with rfl | hends | rfl | hstarts
  · rw [hnil, List.nil_append, List.nil_append]
  · obtain ⟨inner, blank, rfl, hblank⟩ := exists_of_endsBlank hends
    have hlast : words (inner ++ [blank]) = words inner := by
      rw [words_append_blank hblank, hnil, List.append_nil]
    rw [hlast, List.append_assoc, List.singleton_append, words_append_blank hblank]
  · rw [hnil, List.append_nil, List.append_nil]
  · obtain ⟨blank, inner, rfl, hblank⟩ := exists_of_startsBlank hstarts
    have hfirst : words (blank :: inner) = words inner := by
      have hsplit := words_append_blank hblank [] inner
      rw [hnil, List.nil_append, List.nil_append] at hsplit
      exact hsplit
    rw [hfirst, words_append_blank hblank]

theorem words_eq_singleton {word : Text} (hne : word ≠ [])
    (hword : ∀ c ∈ word, isBlank c = false) : words word = [word] := by
  unfold words
  rw [List.splitOnP_eq_singleton hword]
  simp [hne]

theorem unblank_of_mem_words_append {front text word : Text}
    (hfront : ∀ c ∈ front, isBlank c = false) (h : word ∈ words (front ++ text)) :
    ∀ c ∈ word, isBlank c = false := by
  have halone : ∀ {front : Text}, (∀ c ∈ front, isBlank c = false) → word ∈ words front →
      ∀ c ∈ word, isBlank c = false := by
    intro front hfront hmem
    by_cases hne : front = []
    · rw [hne] at hmem
      exact absurd hmem List.not_mem_nil
    · rw [words_eq_singleton hne hfront, List.mem_singleton] at hmem
      rwa [hmem]
  induction text generalizing front with
  | nil =>
    rw [List.append_nil] at h
    exact halone hfront h
  | cons c text ih =>
    by_cases hc : isBlank c = true
    · rw [words_append_blank hc, List.mem_append] at h
      rcases h with hhere | hlater
      · exact halone hfront hhere
      · exact ih (List.forall_mem_nil _) hlater
    · rw [List.append_cons] at h
      apply ih _ h
      simp only [List.forall_mem_append, List.forall_mem_singleton]
      exact ⟨hfront, Bool.eq_false_iff.2 hc⟩

theorem unblank_of_mem_words {text word : Text} (h : word ∈ words text) :
    ∀ c ∈ word, isBlank c = false :=
  unblank_of_mem_words_append (List.forall_mem_nil _) h

theorem ne_nil_of_mem_words {text word : Text} (h : word ∈ words text) : word ≠ [] := by
  simpa using (List.mem_filter.1 h).2

/-- A text without blanks between texts that do not touch it is a word of the whole. -/
theorem mem_words_of_apart {front word back : Text} (hne : word ≠ [])
    (hword : ∀ c ∈ word, isBlank c = false) (hfront : Apart front (word ++ back))
    (hback : Apart word back) : word ∈ words (front ++ (word ++ back)) := by
  rw [words_append_of_apart hfront, words_append_of_apart hback, words_eq_singleton hne hword]
  simp

end Text

namespace ClassList

namespace Spaced

theorem cons_blank {names : List Text} {text : Text} (h : Spaced names text) {blank : Char}
    (hblank : Text.isBlank blank = true) : Spaced names (blank :: text) := by
  have hgrown : ∀ {blanks : Text}, (∀ c ∈ blanks, Text.isBlank c = true) →
      ∀ c ∈ blank :: blanks, Text.isBlank c = true := by
    intro blanks hblanks c hc
    rcases List.mem_cons.1 hc with rfl | hc
    · exact hblank
    · exact hblanks c hc
  cases h with
  | nil hblanks => exact .nil (hgrown hblanks)
  | cons hblanks hgap hrest => exact .cons (hgrown hblanks) hgap hrest

/-- A list that is cut at a blank has one token more. -/
theorem cons_name {names : List Text} {rest : Text} (name : Text)
    (hrest : Spaced names rest) (hgap : names ≠ [] → rest.startsBlank = true) :
    Spaced (name :: names) (name ++ rest) :=
  .cons (List.forall_mem_nil _) hgap hrest

end Spaced

theorem spaced_words_append {word : Text} (hword : ∀ c ∈ word, Text.isBlank c = false)
    (text : Text) : Spaced (Text.words (word ++ text)) (word ++ text) := by
  induction text generalizing word with
  | nil =>
    rw [List.append_nil]
    by_cases hne : word = []
    · rw [hne]
      exact .nil (List.forall_mem_nil _)
    · rw [Text.words_eq_singleton hne hword]
      have hlast := Spaced.cons_name word (.nil (List.forall_mem_nil _)) (by simp)
      rwa [List.append_nil] at hlast
  | cons c text ih =>
    by_cases hc : Text.isBlank c = true
    · have hlater := (ih (List.forall_mem_nil _)).cons_blank hc
      rw [List.nil_append] at hlater
      rw [Text.words_append_blank hc]
      by_cases hne : word = []
      · rw [hne]
        exact hlater
      · rw [Text.words_eq_singleton hne hword]
        exact .cons_name word hlater fun _ => hc
    · have hgrown : ∀ d ∈ word ++ [c], Text.isBlank d = false := by
        intro d hd
        rcases List.mem_append.1 hd with hd | hd
        · exact hword d hd
        · rw [List.mem_singleton.1 hd]
          simpa using hc
      have hall := ih hgrown
      rwa [List.append_assoc, List.singleton_append] at hall

theorem current_nest (reader : Reader) (c : Char) : (reader.nest c).current = reader.current := by
  unfold Reader.nest
  split <;> rfl

/-- What is read so far and what is left are the tokens with blanks between them. -/
theorem spaced_tokensFrom (reader : Reader) (text : Text) :
    Spaced (tokensFrom reader text) (reader.current.reverse ++ text) := by
  fun_induction tokensFrom reader text with
  | case1 reader =>
    rw [List.append_nil]
    unfold Reader.finish
    split
    · exact spaced_words_append (List.forall_mem_nil _) _
    · unfold Reader.token
      by_cases hne : reader.current = []
      · rw [hne]
        exact .nil (List.forall_mem_nil _)
      · have hlast := Spaced.cons_name reader.current.reverse (.nil (List.forall_mem_nil _))
          (by simp)
        rw [List.append_nil] at hlast
        simpa [hne] using hlast
  | case2 reader c rest ih =>
    simpa [Reader.keep] using ih
  | case3 reader c rest _ next hblank ih =>
    have hc : Text.isBlank c = true := (Bool.and_eq_true_iff.1 hblank).1
    have hlater := ih.cons_blank hc
    rw [← current_nest reader c]
    by_cases hne : next.current = []
    · simpa [Reader.token, next, hne] using hlater
    · have hcut := Spaced.cons_name next.current.reverse hlater fun _ => hc
      simpa [Reader.token, next, hne] using hcut
  | case4 reader c rest _ next _ ih =>
    simpa [Reader.keep, next, current_nest] using ih

theorem spaced_tokens (text : Text) : Spaced (tokens text) text :=
  spaced_tokensFrom {} text

theorem ne_nil_of_mem_tokensFrom {reader : Reader} {text token : Text}
    (h : token ∈ tokensFrom reader text) : token ≠ [] := by
  have htoken : ∀ reader : Reader, token ∈ reader.token → token ≠ [] := by
    intro reader hmem
    unfold Reader.token at hmem
    split at hmem
    · exact absurd hmem List.not_mem_nil
    · rename_i hne
      rw [List.mem_singleton.1 hmem]
      simpa using hne
  fun_induction tokensFrom reader text with
  | case1 reader =>
    unfold Reader.finish at h
    split at h
    · unfold Text.words at h
      simpa using (List.mem_filter.1 h).2
    · exact htoken reader h
  | case2 reader c rest ih => exact ih h
  | case3 reader c rest _ next _ ih =>
    rcases List.mem_append.1 h with h | h
    · exact htoken _ h
    · exact ih h
  | case4 reader c rest _ next _ ih => exact ih h

/-- A token without blanks stands in its list between blanks, or where the list starts or ends. -/
theorem Spaced.exists_cut {before after : List Text} {token text : Text}
    (h : Spaced (before ++ token :: after) text) (hne : token ≠ [])
    (htoken : ∀ c ∈ token, Text.isBlank c = false) :
    ∃ front back, text = front ++ (token ++ back) ∧
      (front = [] ∧ before = [] ∨ front.endsBlank = true) ∧
      (back = [] ∧ after = [] ∨ back.startsBlank = true) := by
  induction before generalizing text with
  | nil =>
    cases h with
    | @cons blanks _ rest _ hblanks hgap hrest =>
      refine ⟨blanks, rest, rfl, ?_, ?_⟩
      · by_cases hnone : blanks = []
        · exact .inl ⟨hnone, rfl⟩
        · refine .inr ?_
          unfold Text.endsBlank
          rw [List.getLast?_eq_some_getLast hnone]
          exact hblanks _ (List.getLast_mem hnone)
      · by_cases hlast : after = []
        · rw [hlast] at hrest
          exact hrest.startsBlank.imp (⟨·, hlast⟩) id
        · exact .inr (hgap hlast)
  | cons name before ih =>
    cases h with
    | @cons blanks _ rest _ hblanks hgap hrest =>
      obtain ⟨front, back, rfl, hfront, hback⟩ := ih hrest
      have hends : front.endsBlank = true := by
        rcases hfront with ⟨rfl, -⟩ | hends
        · -- The gap before the token is not empty, since the token starts with no blank.
          have hstart := hgap (by simp)
          rw [List.nil_append, Text.startsBlank_append hne
            (Text.startsBlank_of_unblank htoken)] at hstart
          exact absurd hstart (by decide)
        · exact hends
      refine ⟨blanks ++ (name ++ front), back, by simp, .inr ?_, hback⟩
      exact Text.endsBlank_append_of_right _ (Text.endsBlank_append_of_right _ hends)

theorem mem_words_of_mem_tokens {text token : Text} (htoken : ∀ c ∈ token, Text.isBlank c = false)
    (h : token ∈ tokens text) : token ∈ Text.words text := by
  have hne : token ≠ [] := ne_nil_of_mem_tokensFrom h
  obtain ⟨before, after, htokens⟩ := List.append_of_mem h
  have hspaced := spaced_tokens text
  rw [htokens] at hspaced
  obtain ⟨front, back, rfl, hfront, hback⟩ := hspaced.exists_cut hne htoken
  apply Text.mem_words_of_apart hne htoken
  · exact hfront.imp And.left Or.inl
  · exact .inr (.inr (hback.imp And.left id))

end ClassList

end ClassAudit
