import ClassAudit.Proofs.Css.PlainSheet
import ClassAudit.Utility.Modifier
/-!
# Written selector lists

A list of selectors is written with commas between them and blanks around each
comma.  Splitting such a text at the commas outside of groups and trimming the
parts gives the selectors back.
-/

namespace ClassAudit.Css

/-- A text that may stand in a rule outside of the bodies of keyframes. -/
structure IsInline (text : Text) : Prop where
  plain : Plain text
  flat : ∀ c ∈ text, c ≠ '{' ∧ c ≠ '}' ∧ c ≠ ';'

instance (text : Text) : Decidable (IsInline text) :=
  decidable_of_iff (Plain text ∧ ∀ c ∈ text, c ≠ '{' ∧ c ≠ '}' ∧ c ≠ ';')
    ⟨fun h => ⟨h.1, h.2⟩, fun h => ⟨h.plain, h.flat⟩⟩

/-- The characters that an inline text has only under conditions, or not at all. -/
def ruleChars : List Char := maskedStarts ++ ['{', '}', ';']

theorem not_mem_ruleChars_of_isBlank {c : Char} (h : Text.isBlank c) : c ∉ ruleChars := by
  have hnone : ∀ d ∈ ruleChars, Text.isBlank d = false := by decide
  exact fun hc => Text.ne_of_isBlank h (hnone c hc) rfl

theorem plain_blanks_append {blanks rest : Text} (hblanks : ∀ c ∈ blanks, Text.isBlank c)
    (h : Plain rest) : Plain (blanks ++ rest) := by
  apply Plain.append_of_unmasked _ h
  intro c hc hmem
  exact not_mem_ruleChars_of_isBlank (hblanks c hc) (List.mem_append_left _ hmem)

/-- After blanks, only a star itself can follow a slash to open a comment. -/
theorem head?_blanks_append_cons {blanks : Text} (hblanks : ∀ c ∈ blanks, Text.isBlank c)
    {c : Char} (hc : c ≠ '*') (rest : Text) : (blanks ++ c :: rest).head? ≠ some '*' := by
  cases blanks with
  | nil => simpa using hc
  | cons d blanks =>
    have hd : d ≠ '*' := Text.ne_of_isBlank (hblanks d (by simp)) (by decide)
    simpa using hd

namespace IsInline

theorem nil : IsInline [] where
  plain := .nil
  flat := by simp

theorem cons {c : Char} {rest : Text} (hc : c ∉ ruleChars) (h : IsInline rest) :
    IsInline (c :: rest) where
  plain := .cons (fun hmem => hc (List.mem_append_left _ hmem)) h.plain
  flat := by
    intro d hd
    rcases List.mem_cons.1 hd with rfl | hd
    · simp only [ruleChars, List.mem_append, List.mem_cons, not_or] at hc
      exact ⟨hc.2.1, hc.2.2.1, hc.2.2.2.1⟩
    · exact h.flat d hd

theorem append_of_inert {front rest : Text} (hfront : ∀ c ∈ front, c ∉ ruleChars)
    (h : IsInline rest) : IsInline (front ++ rest) := by
  induction front with
  | nil => exact h
  | cons c front ih => exact cons (hfront c (by simp)) (ih fun d hd => hfront d (by simp [hd]))

theorem append {front rest : Text} (hfront : IsInline front) (hrest : IsInline rest)
    (hseam : rest.head? ≠ some '*') : IsInline (front ++ rest) where
  plain := hfront.plain.append hrest.plain hseam
  flat := by
    intro c hc
    rcases List.mem_append.1 hc with hc | hc
    · exact hfront.flat c hc
    · exact hrest.flat c hc

theorem blanks_append {blanks rest : Text} (hblanks : ∀ c ∈ blanks, Text.isBlank c)
    (h : IsInline rest) : IsInline (blanks ++ rest) :=
  append_of_inert (fun c hc => not_mem_ruleChars_of_isBlank (hblanks c hc)) h

theorem append_blanks {text blanks : Text} (h : IsInline text)
    (hblanks : ∀ c ∈ blanks, Text.isBlank c) : IsInline (text ++ blanks) := by
  have hrest : IsInline (blanks ++ []) := blanks_append hblanks nil
  rw [List.append_nil] at hrest
  apply h.append hrest
  intro hstar
  exact absurd (hblanks '*' (List.mem_of_head? hstar)) (by decide)

end IsInline

/-- A selector as it stands in a list: not empty, without blanks around it, no at-rule, and with no
comma outside of its groups, which all close. -/
structure IsSelector (selector : Text) : Prop extends IsInline selector where
  nonempty : selector ≠ []
  starts : selector.startsBlank = false
  ends : selector.endsBlank = false
  notAtRule : selector.head? ≠ some '@'
  closed : selector.foldl nestingAfter 0 = 0
  commas : ∀ i < selector.length, selector[i]? = some ',' →
    (selector.take i).foldl nestingAfter 0 ≠ 0

instance (selector : Text) : Decidable (IsSelector selector) :=
  decidable_of_iff (IsInline selector ∧ selector ≠ [] ∧ selector.startsBlank = false ∧
      selector.endsBlank = false ∧ selector.head? ≠ some '@' ∧
      selector.foldl nestingAfter 0 = 0 ∧ ∀ i < selector.length, selector[i]? = some ',' →
        (selector.take i).foldl nestingAfter 0 ≠ 0)
    ⟨fun ⟨h₁, h₂, h₃, h₄, h₅, h₆, h₇⟩ => ⟨h₁, h₂, h₃, h₄, h₅, h₆, h₇⟩,
      fun h => ⟨h.toIsInline, h.nonempty, h.starts, h.ends, h.notAtRule, h.closed, h.commas⟩⟩

theorem IsSelector.uncut {selector : Text} (h : IsSelector selector) :
    ∀ front rest, selector = front ++ ',' :: rest → front.foldl nestingAfter 0 ≠ 0 := by
  intro front rest hsplit
  have hnesting := h.commas front.length
  rw [hsplit] at hnesting
  simpa using hnesting

/-- The texts that write a list of selectors: blanks may stand around each comma. -/
inductive Joined : List Text → Text → Prop where
  | single (selector : Text) : Joined [selector] selector
  | cons {selector before after list : Text} {selectors : List Text}
      (hbefore : ∀ c ∈ before, Text.isBlank c) (hafter : ∀ c ∈ after, Text.isBlank c)
      (hlist : Joined selectors list) :
      Joined (selector :: selectors) (selector ++ before ++ ',' :: (after ++ list))

namespace Selector

theorem splitCommas_cons {depth : Nat} {c : Char} {rest part : Text} {parts : List Text}
    (hc : ¬(c = ',' ∧ depth = 0)) (h : splitCommas (nestingAfter depth c) rest = part :: parts) :
    splitCommas depth (c :: rest) = (c :: part) :: parts := by
  have hnext : (if c = '(' ∨ c = '[' then depth + 1
      else if c = ')' ∨ c = ']' then depth - 1 else depth) = nestingAfter depth c := by
    unfold nestingAfter
    simp only [or_comm]
  rw [splitCommas, if_neg hc]
  simp only [hnext, h]

/-- A text with no comma outside of its groups belongs to the first part. -/
theorem splitCommas_append {depth : Nat} {text rest part : Text} {parts : List Text}
    (huncut : ∀ front back, text = front ++ ',' :: back → front.foldl nestingAfter depth ≠ 0)
    (h : splitCommas (text.foldl nestingAfter depth) rest = part :: parts) :
    splitCommas depth (text ++ rest) = (text ++ part) :: parts := by
  induction text generalizing depth with
  | nil => exact h
  | cons c text ih =>
    apply splitCommas_cons
    · rintro ⟨rfl, rfl⟩
      exact huncut [] text rfl rfl
    · apply ih
      · intro front back htext
        exact huncut (c :: front) back (by rw [htext]; rfl)
      · exact h

theorem nestingAfter_of_isBlank {c : Char} (h : Text.isBlank c) (depth : Nat) :
    nestingAfter depth c = depth := by
  have hopen : ¬(c = '[' ∨ c = '(') :=
    not_or.2 ⟨Text.ne_of_isBlank h (by decide), Text.ne_of_isBlank h (by decide)⟩
  have hclose : ¬(c = ']' ∨ c = ')') :=
    not_or.2 ⟨Text.ne_of_isBlank h (by decide), Text.ne_of_isBlank h (by decide)⟩
  unfold nestingAfter
  rw [if_neg hopen, if_neg hclose]

theorem splitCommas_blanks_append {blanks rest part : Text} {parts : List Text}
    (hblanks : ∀ c ∈ blanks, Text.isBlank c) (h : splitCommas 0 rest = part :: parts) :
    splitCommas 0 (blanks ++ rest) = (blanks ++ part) :: parts := by
  apply splitCommas_append
  · rintro front back rfl
    have hcomma := hblanks ',' (by simp)
    exact absurd hcomma (by decide)
  · have hdepth : blanks.foldl nestingAfter 0 = 0 := by
      induction blanks with
      | nil => rfl
      | cons c blanks ih =>
        rw [List.foldl_cons, nestingAfter_of_isBlank (hblanks c (by simp))]
        exact ih fun d hd => hblanks d (by simp [hd])
    rw [hdepth]
    exact h

end Selector

namespace Joined

open Selector

theorem trim_splitCommas {selectors : List Text} {list : Text} (h : Joined selectors list)
    (hselectors : ∀ selector ∈ selectors, IsSelector selector) {blanks : Text}
    (hblanks : ∀ c ∈ blanks, Text.isBlank c) :
    (splitCommas 0 (blanks ++ list)).map Text.trim = selectors := by
  induction h generalizing blanks with
  | single selector =>
    have hselector := hselectors selector (by simp)
    have hsplit : splitCommas 0 (selector ++ []) = [selector ++ []] := by
      apply splitCommas_append hselector.uncut
      rw [hselector.closed, splitCommas]
    rw [List.append_nil] at hsplit
    rw [splitCommas_blanks_append hblanks hsplit, List.map_singleton]
    have htrim := Text.trim_blanks_around hblanks (List.forall_mem_nil _) hselector.nonempty
      hselector.starts hselector.ends
    rw [List.append_nil] at htrim
    rw [htrim]
  | @cons selector before after list selectors hbefore hafter _ ih =>
    have hselector := hselectors selector (by simp)
    have hcomma : splitCommas 0 (',' :: (after ++ list)) =
        [] :: splitCommas 0 (after ++ list) := by
      rw [splitCommas, if_pos ⟨rfl, rfl⟩]
    have hsplit := splitCommas_blanks_append hbefore hcomma
    rw [← hselector.closed] at hsplit
    have hsplit' := splitCommas_append hselector.uncut hsplit
    rw [← List.append_assoc, hselector.closed] at hsplit'
    rw [splitCommas_blanks_append hblanks hsplit', List.map_cons,
      ih (fun other hother => hselectors other (by simp [hother])) hafter, List.append_nil,
      ← List.append_assoc]
    rw [Text.trim_blanks_around hblanks hbefore hselector.nonempty hselector.starts
      hselector.ends]

theorem listFindings_eq {selectors : List Text} {list : Text} (h : Joined selectors list)
    (hselectors : ∀ selector ∈ selectors, IsSelector selector) :
    listFindings list = selectors.flatMap selectorFindings := by
  have hsplit := h.trim_splitCommas hselectors (List.forall_mem_nil _)
  rw [List.nil_append] at hsplit
  unfold listFindings
  rw [hsplit, List.filter_eq_self.2]
  intro selector hselector
  simp [(hselectors selector hselector).nonempty]

theorem exists_first {selectors : List Text} {list : Text} (h : Joined selectors list) :
    ∃ first ∈ selectors, ∃ rest, list = first ++ rest := by
  cases h with
  | single => exact ⟨list, by simp, [], by simp⟩
  | @cons selector before after tail selectors _ _ _ =>
    exact ⟨selector, by simp, before ++ ',' :: (after ++ tail), by simp⟩

theorem exists_last {selectors : List Text} {list : Text} (h : Joined selectors list) :
    ∃ last ∈ selectors, ∃ front, list = front ++ last := by
  induction h with
  | single selector => exact ⟨selector, by simp, [], by simp⟩
  | @cons selector before after tail selectors _ _ _ ih =>
    obtain ⟨last, hlast, front, rfl⟩ := ih
    exact ⟨last, by simp [hlast], selector ++ before ++ ',' :: (after ++ front), by simp⟩

theorem isInline {selectors : List Text} {list : Text} (h : Joined selectors list)
    (hselectors : ∀ selector ∈ selectors, IsSelector selector) : IsInline list := by
  induction h with
  | single selector => exact (hselectors selector (by simp)).toIsInline
  | @cons selector before after list selectors hbefore hafter _ ih =>
    have hselector := hselectors selector (by simp)
    have hrest : IsInline (before ++ ',' :: (after ++ list)) :=
      .blanks_append hbefore (.cons (by decide) (.blanks_append hafter
        (ih fun other hother => hselectors other (by simp [hother]))))
    rw [List.append_assoc]
    exact hselector.toIsInline.append hrest (head?_blanks_append_cons hbefore (by decide) _)

end Joined

end ClassAudit.Css
