import ClassAudit.Proofs.Markup.ShelteredTokens
/-!
# Reading tokens again

The tokens of a class list, written with single spaces between them, are read
as the same tokens.  What needs an argument is a group that the list leaves
open, since its words are cut where the reader itself saw no break: a space for
a run of blanks opens, closes and escapes what the run did, so the reader again
sees no break and again finds the group open.
-/

namespace ClassAudit.Text

/-- A text has no blanks, or it is a word without blanks, a blank and another text. -/
@[elab_as_elim]
theorem word_induction {motive : Text → Prop}
    (word : ∀ word, (∀ c ∈ word, isBlank c = false) → motive word)
    (blank : ∀ word blank rest, (∀ c ∈ word, isBlank c = false) → isBlank blank = true →
      motive rest → motive (word ++ blank :: rest))
    (text : Text) : motive text := by
  suffices hall : ∀ front, (∀ c ∈ front, isBlank c = false) → motive (front ++ text) from
    hall [] (List.forall_mem_nil _)
  induction text with
  | nil =>
    intro front hfront
    rw [List.append_nil]
    exact word front hfront
  | cons c text ih =>
    intro front hfront
    cases hc : isBlank c with
    | true => exact blank front c text hfront hc (ih [] (List.forall_mem_nil _))
    | false =>
      rw [List.append_cons]
      apply ih
      simp only [List.forall_mem_append, List.forall_mem_singleton]
      exact ⟨hfront, hc⟩

end ClassAudit.Text

namespace ClassAudit.ClassList

/-- Tokens with a single space between any two. -/
def joined (tokens : List Text) : Text :=
  List.intercalate [' '] tokens

theorem joined_singleton (token : Text) : joined [token] = token :=
  List.append_nil token

theorem joined_cons (token : Text) {tokens : List Text} (h : tokens ≠ []) :
    joined (token :: tokens) = token ++ ' ' :: joined tokens := by
  cases tokens with
  | nil => exact absurd rfl h
  | cons next tokens => rfl

theorem words_joined {words : List Text}
    (h : ∀ word ∈ words, word ≠ [] ∧ ∀ c ∈ word, Text.isBlank c = false) :
    Text.words (joined words) = words := by
  induction words with
  | nil => rfl
  | cons word words ih =>
    obtain ⟨⟨hne, hword⟩, hlater⟩ := List.forall_mem_cons.1 h
    by_cases hlast : words = []
    · rw [hlast, joined_singleton, Text.words_eq_singleton hne hword]
    · rw [joined_cons word hlast, Text.words_append_blank (by decide), ih hlater,
        Text.words_eq_singleton hne hword]
      rfl

/-! ## Single spaces for runs of blanks -/

/-- With single spaces a text has no break where it had none, and leaves the same groups open. -/
theorem unbroken_joined_words {place : Place} (hplace : place.escaped = false) {text : Text}
    (h : Unbroken place text) :
    Unbroken place (joined (Text.words text)) ∧
      (place.run (joined (Text.words text))).groups = (place.run text).groups := by
  induction text using Text.word_induction generalizing place with
  | word word hword =>
    by_cases hne : word = []
    · rw [hne]
      exact ⟨trivial, rfl⟩
    · rw [Text.words_eq_singleton hne hword, joined_singleton]
      exact ⟨h, rfl⟩
  | blank word blank rest hword hblank ih =>
    obtain ⟨hunbroken, hshelter, hrest⟩ := Unbroken.append_iff.1 h
    -- Behind the run of blanks and behind the space, the reader is at the same place.
    have hstep : (place.run word).step ' ' = (place.run word).step blank := by
      rw [Place.step_blank _ hblank, Place.step_blank _ (by decide)]
    have hescaped : ((place.run word).step blank).escaped = false := by
      rw [Place.step_blank _ hblank]
    obtain ⟨hlater, hgroups⟩ := ih hescaped hrest
    rw [Text.words_append_blank hblank, Place.run_append, Place.run_cons, ← hgroups]
    by_cases hne : word = []
    · subst hne
      have hstart : place.step blank = place := by
        rw [Place.step_blank _ hblank, ← hplace]
      rw [Place.run_nil, hstart] at hlater ⊢
      exact ⟨hlater, rfl⟩
    · rw [Text.words_eq_singleton hne hword, List.singleton_append]
      by_cases hlast : Text.words rest = []
      · rw [hlast, joined_singleton]
        refine ⟨hunbroken, ?_⟩
        rw [Place.step_blank _ hblank]
        rfl
      · rw [joined_cons word hlast, Place.run_append, Place.run_cons, hstep]
        refine ⟨Unbroken.append_iff.2 ⟨hunbroken, fun _ => hshelter hblank, ?_⟩, rfl⟩
        rwa [hstep]

/-- The tokens of a list are found again between single spaces. -/
theorem tokens_joined_tokens (text : Text) : tokens (joined (tokens text)) = tokens text := by
  induction text using break_induction with
  | unbroken text hall =>
    rw [tokens_unbroken hall]
    split
    · rename_i hopen
      obtain ⟨hjoined, hgroups⟩ := unbroken_joined_words rfl hall
      rw [tokens_unbroken hjoined, hgroups, if_pos hopen]
      exact words_joined fun word hword =>
        ⟨Text.ne_nil_of_mem_words hword, Text.unblank_of_mem_words hword⟩
    · rename_i hclosed
      by_cases hne : text = []
      · rw [hne]
        rfl
      · rw [tokenOf_of_ne_nil hne, joined_singleton, tokens_unbroken hall, if_neg hclosed,
          tokenOf_of_ne_nil hne]
  | broken front blank back hfront hblank hbreak ih =>
    rw [tokens_broken hfront hblank hbreak]
    by_cases hne : front = []
    · rw [hne]
      exact ih
    · rw [tokenOf_of_ne_nil hne, List.singleton_append]
      by_cases hlast : tokens back = []
      · rw [hlast, joined_singleton, tokens_unbroken hfront, hbreak]
        exact tokenOf_of_ne_nil hne
      · rw [joined_cons front hlast, tokens_broken hfront (by decide) hbreak, ih,
          tokenOf_of_ne_nil hne]
        rfl

/-! ## Lists behind each other -/

/-- A list that leaves nothing open is read as if it stood alone. -/
theorem tokens_append {front gap : Text} (hfront : Place.run {} front = {}) (hne : gap ≠ [])
    (hgap : ∀ c ∈ gap, Text.isBlank c = true) (back : Text) :
    tokens (front ++ gap ++ back) = tokens front ++ tokens back := by
  obtain ⟨first, gap, rfl⟩ := List.exists_cons_of_ne_nil hne
  obtain ⟨hfirst, hgap⟩ := List.forall_mem_cons.1 hgap
  have hbehind : tokens (gap ++ back) = tokens back := tokensFrom_blanks hgap back
  rw [List.append_assoc, List.cons_append]
  induction front using break_induction with
  | unbroken front hall =>
    rw [tokens_broken hall hfirst hfront, hbehind, tokens_unbroken hall, hfront]
    rfl
  | broken inner blank front hinner hblank hbreak ih =>
    rw [Place.run_append, Place.run_cons, hbreak, Place.step_blank _ hblank] at hfront
    rw [List.append_assoc, List.cons_append, tokens_broken hinner hblank hbreak,
      tokens_broken hinner hblank hbreak, ih hfront, List.append_assoc]

/-- The tokens of a list, joined by single spaces or one by one, are read as they are.  A list
that ends with its groups closed and not in an escape adds its tokens to those of the list that
follows behind blanks. -/
theorem tokens_stable_and_additive :
    (∀ text, tokens (List.intercalate [' '] (tokens text)) = tokens text) ∧
    (∀ text, ∀ token ∈ tokens text, tokens token = [token]) ∧
    ∀ front gap back, ((unescaped front).foldl Reader.nest {}).inGroup = false →
      escapesNext front = false → gap ≠ [] → (∀ c ∈ gap, Text.isBlank c = true) →
        tokens (front ++ gap ++ back) = tokens front ++ tokens back := by
  refine ⟨tokens_joined_tokens, fun text token hmem => (isToken_of_mem_tokens hmem).tokens_eq, ?_⟩
  intro front gap back hclosed hescape hne hgap
  refine tokens_append (Place.run_eq_start ?_) hne hgap back
  unfold Place.shelters
  rw [escaped_run, groups_run, hescape, hclosed]
  rfl

/-- A list that escapes a blank and closes its groups, before one that leaves a group open. -/
theorem tokens_additive_sample :
    let front := "a-[b c] d\\ e".toList
    let back := "(f g\\".toList
    (((unescaped front).foldl Reader.nest {}).inGroup = false ∧ escapesNext front = false) ∧
      tokens (front ++ "\t ".toList ++ back) = tokens front ++ tokens back ∧
      tokens back = ["(f".toList, "g\\".toList] ∧ tokens "g\\".toList = ["g\\".toList] :=
  ⟨by decide, tokens_stable_and_additive.2.2 _ _ _ (by decide) (by decide) (by decide) (by decide),
    by decide, tokens_stable_and_additive.2.1 "(f g\\".toList _ (by decide)⟩

end ClassAudit.ClassList
