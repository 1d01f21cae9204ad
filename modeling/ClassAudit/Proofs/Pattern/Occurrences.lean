import ClassAudit.Proofs.Pattern.Runs
import Mathlib.Computability.Language
/-!
# Occurrences as words

An expression without assertions reads the same words wherever it stands in a
text.  Its words are a language, built with the operations on languages as the
expression is built, and the expression occurs in a text when one of its words
is a part of the text.
-/

namespace ClassAudit.Regex

open scoped Computability

variable {α : Type}

/-- No part of the expression looks at the symbols around a place. -/
def isUnasserted : Regex α → Bool
  | never | empty | item _ => true
  | between _ => false
  | seq first second | alt first second => first.isUnasserted && second.isUnasserted
  | star body => body.isUnasserted

/-- The words of an expression.  An assertion has none: only expressions without assertions are
described by their words. -/
def language : Regex α → Language α
  | never | between _ => 0
  | empty => 1
  | item test => {word | ∃ symbol, test symbol = true ∧ word = [symbol]}
  | seq first second => first.language * second.language
  | alt first second => first.language + second.language
  | star body => body.language∗

theorem language_concat (parts : List (Regex α)) :
    (concat parts).language = (parts.map language).prod := by
  induction parts with
  | nil => rfl
  | cons part parts ih =>
    rw [List.map_cons, List.prod_cons, ← ih]
    rfl

theorem mem_language_item {test : α → Bool} {word : List α} :
    word ∈ (item test).language ↔ ∃ symbol, test symbol = true ∧ word = [symbol] :=
  Iff.rfl

theorem mem_language_star_item {test : α → Bool} {word : List α} :
    word ∈ (star (item test)).language ↔ ∀ symbol ∈ word, test symbol = true := by
  unfold language
  rw [Language.mem_kstar]
  constructor
  · rintro ⟨words, rfl, hwords⟩ symbol hsymbol
    obtain ⟨part, hpart, hmem⟩ := List.mem_flatten.1 hsymbol
    obtain ⟨only, htest, rfl⟩ := mem_language_item.1 (hwords part hpart)
    rwa [List.mem_singleton.1 hmem]
  · intro htest
    refine ⟨word.map ([·]), ?_, ?_⟩
    · rw [← List.flatMap_def, List.flatMap_singleton']
    · intro part hpart
      obtain ⟨symbol, hsymbol, rfl⟩ := List.mem_map.1 hpart
      exact ⟨symbol, htest symbol hsymbol, rfl⟩

/-! ## Words between two places -/

/-- The word stands between the two places. -/
def Spans (word : List α) (place later : Place α) : Prop :=
  place.rest = word ++ later.rest ∧ later.previous = word.getLast?.or place.previous

theorem spans_nil_iff {place later : Place α} : Spans [] place later ↔ later = place := by
  obtain ⟨previous, rest⟩ := place
  obtain ⟨last, behind⟩ := later
  unfold Spans
  rw [Place.mk.injEq, List.nil_append, List.getLast?_nil, Option.none_or]
  exact ⟨fun h => ⟨h.2, h.1.symm⟩, fun h => ⟨h.2.symm, h.1⟩⟩

theorem spans_append_iff {front back : List α} {place later : Place α} :
    Spans (front ++ back) place later ↔
      ∃ middle, Spans front place middle ∧ Spans back middle later := by
  unfold Spans
  rw [List.append_assoc, List.getLast?_append, Option.or_assoc]
  constructor
  · rintro ⟨hrest, hprevious⟩
    exact ⟨⟨front.getLast?.or place.previous, back ++ later.rest⟩, ⟨hrest, rfl⟩, rfl, hprevious⟩
  · rintro ⟨middle, ⟨hfront, hmiddle⟩, hback, hlater⟩
    rw [hfront, hback, hlater, hmiddle]
    exact ⟨rfl, rfl⟩

theorem exists_spans_iff {word : List α} {place : Place α} :
    (∃ later, Spans word place later) ↔ word <+: place.rest := by
  constructor
  · rintro ⟨later, hrest, -⟩
    exact ⟨later.rest, hrest.symm⟩
  · rintro ⟨rest, hrest⟩
    exact ⟨⟨word.getLast?.or place.previous, rest⟩, hrest.symm, rfl⟩

theorem Spans.shorter {word : List α} {place later : Place α} (h : Spans word place later)
    (hword : word ≠ []) : later.rest.length < place.rest.length := by
  have hpos := List.length_pos_iff.2 hword
  rw [h.1, List.length_append]
  omega

theorem mem_placesFrom_iff {previous : Option α} {text : List α} {place : Place α} :
    place ∈ placesFrom previous text ↔ ∃ front, Spans front ⟨previous, text⟩ place := by
  induction text generalizing previous with
  | nil =>
    unfold placesFrom
    rw [List.mem_singleton]
    constructor
    · rintro rfl
      exact ⟨[], spans_nil_iff.2 rfl⟩
    · rintro ⟨front, hspans⟩
      obtain rfl : front = [] := (List.append_eq_nil_iff.1 hspans.1.symm).1
      exact spans_nil_iff.1 hspans
  | cons symbol rest ih =>
    unfold placesFrom
    rw [List.mem_cons, ih]
    have hstep : ∀ front, Spans (symbol :: front) ⟨previous, symbol :: rest⟩ place ↔
        Spans front ⟨some symbol, rest⟩ place := by
      intro front
      unfold Spans
      rw [List.cons_append, List.cons.injEq, List.getLast?_cons]
      cases front.getLast? <;> simp
    constructor
    · rintro (rfl | ⟨front, hspans⟩)
      · exact ⟨[], spans_nil_iff.2 rfl⟩
      · exact ⟨symbol :: front, (hstep front).2 hspans⟩
    · rintro ⟨front, hspans⟩
      cases front with
      | nil => exact .inl (spans_nil_iff.1 hspans)
      | cons first front =>
        obtain rfl : symbol = first := (List.cons.inj hspans.1).1
        exact .inr ⟨front, (hstep front).1 hspans⟩

/-! ## Runs read words -/

theorem runs_star_of_spans {body : Regex α} {words : List (List α)} {place later : Place α}
    (hwords : ∀ word ∈ words, word ≠ [] ∧ ∀ place later, Spans word place later →
      Runs body place later)
    (h : Spans words.flatten place later) : Runs (star body) place later := by
  induction words generalizing place with
  | nil =>
    rw [spans_nil_iff.1 h]
    exact .starNil
  | cons word words ih =>
    rw [List.flatten_cons] at h
    obtain ⟨middle, hfirst, hrest⟩ := spans_append_iff.1 h
    obtain ⟨⟨hne, hruns⟩, hwords⟩ := List.forall_mem_cons.1 hwords
    exact .starCons (hruns place middle hfirst) (hfirst.shorter hne) (ih hwords hrest)

theorem exists_word_of_runs_star {body : Regex α} {place later : Place α}
    (hbody : ∀ place later, Runs body place later → ∃ word ∈ body.language, Spans word place later)
    (h : Runs (star body) place later) :
    ∃ word ∈ (star body).language, Spans word place later := by
  generalize hregex : star body = regex at h
  induction h with
  | starNil => exact ⟨[], Language.nil_mem_kstar _, spans_nil_iff.2 rfl⟩
  | @starCons other place middle later hturn _ _ _ ih =>
    obtain rfl := Regex.star.inj hregex
    obtain ⟨first, hfirst, hspans⟩ := hbody _ _ hturn
    obtain ⟨words, hwords, hrest⟩ := ih rfl
    have hturns : body.language * (star body).language ≤ (star body).language :=
      mul_kstar_le_kstar
    exact ⟨first ++ words, hturns (Language.append_mem_mul hfirst hwords),
      spans_append_iff.2 ⟨middle, hspans, hrest⟩⟩
  | _ => cases hregex

/-- The runs of an expression without assertions read its words. -/
theorem runs_iff_spans_word {regex : Regex α} (h : regex.isUnasserted = true)
    {place later : Place α} :
    Runs regex place later ↔ ∃ word ∈ regex.language, Spans word place later := by
  induction regex generalizing place later with
  | never =>
    constructor
    · intro hrun
      cases hrun
    · rintro ⟨word, hword, -⟩
      exact absurd hword (Language.notMem_zero word)
  | empty =>
    rw [runs_empty_iff, ← spans_nil_iff]
    constructor
    · intro hspans
      exact ⟨[], Language.nil_mem_one, hspans⟩
    · rintro ⟨word, hword, hspans⟩
      rwa [(Language.mem_one word).1 hword] at hspans
  | item test =>
    constructor
    · intro hrun
      cases hrun with
      | item htest => exact ⟨[_], ⟨_, htest, rfl⟩, rfl, rfl⟩
    · rintro ⟨word, ⟨symbol, htest, rfl⟩, hrest, hprevious⟩
      obtain ⟨previous, rest⟩ := place
      obtain ⟨last, behind⟩ := later
      obtain rfl : last = some symbol := hprevious
      obtain rfl : rest = symbol :: behind := hrest
      exact .item htest
  | between test => cases h
  | seq first second ihfirst ihsecond =>
    obtain ⟨hfirst, hsecond⟩ := (Bool.and_eq_true _ _).mp h
    rw [runs_seq_iff]
    constructor
    · rintro ⟨middle, hfront, hback⟩
      obtain ⟨front, hword, hspans⟩ := (ihfirst hfirst).1 hfront
      obtain ⟨back, hword', hspans'⟩ := (ihsecond hsecond).1 hback
      exact ⟨front ++ back, Language.append_mem_mul hword hword',
        spans_append_iff.2 ⟨middle, hspans, hspans'⟩⟩
    · rintro ⟨word, hword, hspans⟩
      obtain ⟨front, hfront, back, hback, rfl⟩ := Language.mem_mul.1 hword
      obtain ⟨middle, hspans, hspans'⟩ := spans_append_iff.1 hspans
      exact ⟨middle, (ihfirst hfirst).2 ⟨front, hfront, hspans⟩,
        (ihsecond hsecond).2 ⟨back, hback, hspans'⟩⟩
  | alt first second ihfirst ihsecond =>
    obtain ⟨hfirst, hsecond⟩ := (Bool.and_eq_true _ _).mp h
    constructor
    · intro hrun
      cases hrun with
      | altFirst hrun =>
        obtain ⟨word, hword, hspans⟩ := (ihfirst hfirst).1 hrun
        exact ⟨word, .inl hword, hspans⟩
      | altSecond hrun =>
        obtain ⟨word, hword, hspans⟩ := (ihsecond hsecond).1 hrun
        exact ⟨word, .inr hword, hspans⟩
    · rintro ⟨word, hword | hword, hspans⟩
      · exact .altFirst ((ihfirst hfirst).2 ⟨word, hword, hspans⟩)
      · exact .altSecond ((ihsecond hsecond).2 ⟨word, hword, hspans⟩)
  | star body ih =>
    constructor
    · exact exists_word_of_runs_star fun _ _ => (ih h).1
    · rintro ⟨word, hword, hspans⟩
      -- Empty turns can be left out of a word, and no run takes one.
      obtain ⟨words, rfl, hwords⟩ := Language.mem_kstar_iff_exists_nonempty.1 hword
      refine runs_star_of_spans (fun part hpart => ?_) hspans
      obtain ⟨hmem, hne⟩ := hwords part hpart
      exact ⟨hne, fun _ _ hspans => (ih h).2 ⟨part, hmem, hspans⟩⟩

/-- An expression without assertions occurs in a text when one of its words is a part of it. -/
theorem occursIn_iff_exists_word [DecidableEq α] {regex : Regex α}
    (h : regex.isUnasserted = true) {text : List α} :
    regex.occursIn text = true ↔ ∃ word ∈ regex.language, word <:+: text := by
  have hplace : ∀ place : Place α, (!(regex.ends place).isEmpty) = true ↔
      ∃ word ∈ regex.language, word <+: place.rest := by
    intro place
    rw [Bool.not_eq_true', List.isEmpty_eq_false_iff_exists_mem]
    simp only [mem_ends_iff, runs_iff_spans_word h, ← exists_spans_iff]
    constructor
    · rintro ⟨later, word, hword, hspans⟩
      exact ⟨word, hword, later, hspans⟩
    · rintro ⟨word, hword, later, hspans⟩
      exact ⟨later, word, hword, hspans⟩
  unfold occursIn
  rw [List.any_eq_true]
  constructor
  · rintro ⟨place, hmem, hends⟩
    obtain ⟨front, hfront, -⟩ := mem_placesFrom_iff.1 hmem
    obtain ⟨word, hword, back, hback⟩ := (hplace place).1 hends
    refine ⟨word, hword, front, back, ?_⟩
    rw [List.append_assoc, hback]
    exact hfront.symm
  · rintro ⟨word, hword, front, back, rfl⟩
    rw [List.append_assoc]
    refine ⟨⟨front.getLast?.or none, word ++ back⟩, mem_placesFrom_iff.2 ⟨front, rfl, rfl⟩, ?_⟩
    exact (hplace _).2 ⟨word, hword, List.prefix_append word back⟩

end ClassAudit.Regex
