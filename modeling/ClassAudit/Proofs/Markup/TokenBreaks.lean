import ClassAudit.Proofs.Markup.SpacedTokens
/-!
# Where a class list breaks

A blank ends a token unless a backslash escapes it or a group shelters it, and
whether it does is decided by the text of its own token alone.  So a class list
is read break by break: it is one unbroken text, or an unbroken text, a blank
and a shorter list.  Every result about the tokens of a list follows these two
cases, and only they look into the reader.
-/

namespace ClassAudit.ClassList

/-- A place in a token: the groups open around it, and whether a backslash in front escapes it. -/
structure Place where
  groups : Reader := {}
  escaped : Bool := false

namespace Place

/-- The place behind a character. -/
def step (place : Place) (c : Char) : Place :=
  if place.escaped then { place with escaped := false }
  else if c = '\\' then { place with escaped := true }
  else { place with groups := place.groups.nest c }

/-- The place behind a text. -/
def run (place : Place) (text : Text) : Place :=
  text.foldl step place

/-- Whether a blank at the place belongs to its token. -/
def shelters (place : Place) : Bool :=
  place.escaped || place.groups.inGroup

@[simp] theorem run_nil (place : Place) : place.run [] = place := rfl

@[simp] theorem run_cons (place : Place) (c : Char) (text : Text) :
    place.run (c :: text) = (place.step c).run text := rfl

@[simp] theorem run_append (place : Place) (front back : Text) :
    place.run (front ++ back) = (place.run front).run back :=
  List.foldl_append

theorem step_of_escaped {place : Place} (h : place.escaped = true) (c : Char) :
    place.step c = { place with escaped := false } :=
  if_pos h

theorem step_backslash {place : Place} (h : place.escaped = false) :
    place.step '\\' = { place with escaped := true } := by
  simp [step, h]

theorem step_of_ne {place : Place} {c : Char} (h : place.escaped = false) (hc : c ≠ '\\') :
    place.step c = { place with groups := place.groups.nest c } := by
  simp [step, h, hc]

theorem nest_blank {c : Char} (hc : Text.isBlank c = true) (reader : Reader) :
    reader.nest c = reader := by
  have hbrackets : ∀ d ∈ ['[', ']', '(', ')'], Text.isBlank d = false := by decide
  exact nest_of_ne fun hmem => Text.ne_of_isBlank hc (hbrackets c hmem) rfl

/-- Behind a blank the same groups are open and nothing is escaped. -/
theorem step_blank (place : Place) {c : Char} (hc : Text.isBlank c = true) :
    place.step c = { place with escaped := false } := by
  cases hescaped : place.escaped with
  | true => exact step_of_escaped hescaped c
  | false =>
    rw [step_of_ne hescaped (Text.ne_of_isBlank hc (by decide)), nest_blank hc, ← hescaped]

theorem current_step (place : Place) (c : Char) :
    (place.step c).groups.current = place.groups.current := by
  unfold step
  split
  · rfl
  · split
    · rfl
    · exact current_nest place.groups c

theorem current_run (place : Place) (text : Text) :
    (place.run text).groups.current = place.groups.current := by
  induction text generalizing place with
  | nil => rfl
  | cons c text ih => rw [run_cons, ih, current_step]

/-- A place in a token that shelters nothing is like its start. -/
theorem run_eq_start {text : Text} (h : (run {} text).shelters = false) : run {} text = {} := by
  have hcurrent : (run {} text).groups.current = [] := current_run {} text
  generalize run {} text = place at h hcurrent ⊢
  obtain ⟨⟨current, brackets, parens⟩, escaped⟩ := place
  simp only [shelters, Reader.inGroup, Bool.or_eq_false_iff, decide_eq_false_iff_not, Nat.not_lt,
    Nat.le_zero] at h
  obtain ⟨rfl, rfl, rfl⟩ := h
  obtain rfl : current = [] := hcurrent
  rfl

end Place

/-- A text that no blank breaks: each blank in it is sheltered. -/
def Unbroken (place : Place) : Text → Prop
  | [] => True
  | c :: rest => (Text.isBlank c = true → place.shelters = true) ∧ Unbroken (place.step c) rest

namespace Unbroken

theorem append_iff {place : Place} {front back : Text} :
    Unbroken place (front ++ back) ↔ Unbroken place front ∧ Unbroken (place.run front) back := by
  induction front generalizing place with
  | nil => exact ⟨fun h => ⟨trivial, h⟩, And.right⟩
  | cons c front ih =>
    rw [List.cons_append, Unbroken, Unbroken, ih, Place.run_cons, and_assoc]

theorem of_unblank {text : Text} (h : ∀ c ∈ text, Text.isBlank c = false) (place : Place) :
    Unbroken place text := by
  induction text generalizing place with
  | nil => trivial
  | cons c text ih =>
    obtain ⟨hc, htext⟩ := List.forall_mem_cons.1 h
    exact ⟨fun hblank => absurd hblank (by simp [hc]), ih htext _⟩

end Unbroken

/-- A text that is broken has a first break. -/
theorem unbroken_or_exists_break (place : Place) (text : Text) :
    Unbroken place text ∨ ∃ front blank back, text = front ++ blank :: back ∧
      Unbroken place front ∧ Text.isBlank blank = true ∧ (place.run front).shelters = false := by
  induction text generalizing place with
  | nil => exact .inl trivial
  | cons c text ih =>
    by_cases hbreak : Text.isBlank c = true ∧ place.shelters = false
    · exact .inr ⟨[], c, text, rfl, trivial, hbreak⟩
    · have hc : Text.isBlank c = true → place.shelters = true := by
        intro hblank
        simpa [hblank] using hbreak
      rcases ih (place.step c) with hall | ⟨front, blank, back, rfl, hfront, hlater⟩
      · exact .inl ⟨hc, hall⟩
      · exact .inr ⟨c :: front, blank, back, rfl, ⟨hc, hfront⟩, hlater⟩

/-! ## The reader at the breaks -/

/-- The groups open in the token that is read. -/
def Reader.groups (reader : Reader) : Reader :=
  { reader with current := [] }

theorem Reader.groups_nest (reader : Reader) (c : Char) :
    (reader.nest c).groups = reader.groups.nest c := by
  unfold Reader.groups Reader.nest
  split <;> rfl

/-- An unbroken text is kept in the token. -/
theorem tokensFrom_append {reader : Reader} {front : Text}
    (h : Unbroken ⟨reader.groups, false⟩ front)
    (hended : (Place.run ⟨reader.groups, false⟩ front).escaped = false) (rest : Text) :
    tokensFrom reader (front ++ rest) =
      tokensFrom { (Place.run ⟨reader.groups, false⟩ front).groups with
        current := front.reverse ++ reader.current } rest := by
  fun_induction tokensFrom reader front with
  | case1 reader => rfl
  | case2 reader c front ih =>
    rw [List.cons_append, List.cons_append, tokensFrom]
    simp only [List.reverse_cons, List.append_assoc]
    exact ih h.2.2 hended
  | case3 reader c front hescape next hblank =>
    obtain ⟨hc, hout⟩ := Bool.and_eq_true_iff.1 hblank
    have hin := h.1 hc
    have hnext : next = reader := Place.nest_blank hc reader
    rw [hnext] at hout
    simp only [Place.shelters, Bool.false_or] at hin
    exact absurd hin (by simpa [Reader.inGroup, Reader.groups] using hout)
  | case4 reader c front hescape next hkept ih =>
    by_cases hc : c = '\\'
    · cases front with
      | nil =>
        rw [hc] at hended
        cases hended
      | cons d front => exact absurd rfl (hescape d front hc)
    · have hstep : Place.step ⟨reader.groups, false⟩ c = ⟨(next.keep c).groups, false⟩ := by
        rw [Place.step_of_ne rfl hc]
        exact congrArg (Place.mk · false) (Reader.groups_nest reader c).symm
      have hcurrent : (next.keep c).current = c :: reader.current :=
        congrArg (c :: ·) (current_nest reader c)
      rw [Place.run_cons, hstep] at hended ⊢
      rw [List.cons_append, tokensFrom_cons hc, if_neg hkept, ih (hstep ▸ h.2) hended, hcurrent,
        List.reverse_cons, List.append_assoc, List.singleton_append]

theorem tokensFrom_lone_backslash (reader : Reader) :
    tokensFrom reader ['\\'] = (reader.keep '\\').finish := rfl

/-- A text as a token, unless it is empty. -/
def tokenOf (text : Text) : List Text :=
  if text.isEmpty then [] else [text]

theorem finish_reversed (groups : Reader) (text : Text) :
    Reader.finish { groups with current := text.reverse } =
      if groups.inGroup then Text.words text else tokenOf text := by
  unfold Reader.finish Reader.token tokenOf
  simp only [List.reverse_reverse, List.isEmpty_reverse]
  rfl

/-- A list without a break is one token, or the words of a group that it leaves open. -/
theorem tokens_unbroken {text : Text} (h : Unbroken {} text) :
    tokens text =
      if (Place.run {} text).groups.inGroup then Text.words text else tokenOf text := by
  rw [← finish_reversed]
  cases hended : (Place.run {} text).escaped with
  | false =>
    have hread := @tokensFrom_append {} text h hended []
    rw [List.append_nil, List.append_nil] at hread
    exact hread
  | true =>
    -- The last character is a backslash with nothing to escape.
    rcases List.eq_nil_or_concat text with rfl | ⟨front, last, rfl⟩
    · cases hended
    · rw [List.concat_eq_append] at h hended ⊢
      rw [Place.run_append, Place.run_cons, Place.run_nil] at hended ⊢
      have hfront : (Place.run {} front).escaped = false := by
        cases hescaped : (Place.run {} front).escaped with
        | false => rfl
        | true => rw [Place.step_of_escaped hescaped] at hended; cases hended
      have hlast : last = '\\' := by
        by_cases hne : last = '\\'
        · exact hne
        · rw [Place.step_of_ne hfront hne] at hended
          exact absurd (hfront.symm.trans hended) (by decide)
      have hread := @tokensFrom_append {} front (Unbroken.append_iff.1 h).1 hfront [last]
      subst hlast
      rw [tokensFrom_lone_backslash] at hread
      rw [Place.step_backslash hfront, List.reverse_append]
      exact hread.trans (by rw [List.append_nil]; rfl)

/-- A list is cut at its first break. -/
theorem tokens_broken {front : Text} {blank : Char} (hfront : Unbroken {} front)
    (hblank : Text.isBlank blank = true) (hbreak : Place.run {} front = {}) (back : Text) :
    tokens (front ++ blank :: back) = tokenOf front ++ tokens back := by
  have hread := @tokensFrom_append {} front hfront (congrArg Place.escaped hbreak)
    (blank :: back)
  have hgroups : (Place.run ⟨Reader.groups {}, false⟩ front).groups = {} :=
    congrArg Place.groups hbreak
  rw [hgroups, List.append_nil, tokensFrom_blank hblank] at hread
  rw [tokens, hread]
  unfold Reader.token tokenOf
  simp only [List.reverse_reverse, List.isEmpty_reverse]
  rfl

/-- A list is unbroken, or it is an unbroken text, a blank and another list. -/
@[elab_as_elim]
theorem break_induction {motive : Text → Prop}
    (unbroken : ∀ text, Unbroken {} text → motive text)
    (broken : ∀ front blank back, Unbroken {} front → Text.isBlank blank = true →
      Place.run {} front = {} → motive back → motive (front ++ blank :: back))
    (text : Text) : motive text := by
  induction hlength : text.length using Nat.strongRecOn generalizing text with
  | ind length ih =>
    rcases unbroken_or_exists_break {} text with hall | ⟨front, blank, back, rfl, hfront, hblank, h⟩
    · exact unbroken text hall
    · have hback : back.length < length := by
        simp only [List.length_append, List.length_cons] at hlength
        omega
      exact broken front blank back hfront hblank (Place.run_eq_start h) (ih _ hback back rfl)

/-! ## The texts that are tokens -/

/-- A text that is a token of some list: it is unbroken, and has no blanks if it leaves a group
open. -/
structure IsToken (text : Text) : Prop where
  nonempty : text ≠ []
  unbroken : Unbroken {} text
  unblank : (Place.run {} text).groups.inGroup = true → ∀ c ∈ text, Text.isBlank c = false

theorem tokenOf_of_ne_nil {text : Text} (h : text ≠ []) : tokenOf text = [text] := by
  simp [tokenOf, h]

theorem IsToken.tokens_eq {text : Text} (h : IsToken text) : tokens text = [text] := by
  rw [tokens_unbroken h.unbroken]
  split
  · rename_i hgroup
    exact Text.words_eq_singleton h.nonempty (h.unblank hgroup)
  · exact tokenOf_of_ne_nil h.nonempty

theorem isToken_of_mem_tokenOf {text token : Text} (hmem : token ∈ tokenOf text)
    (h : Unbroken {} text) (hclosed : (Place.run {} text).groups.inGroup = false) :
    IsToken token := by
  unfold tokenOf at hmem
  split at hmem
  · cases hmem
  · rename_i hne
    rw [List.mem_singleton.1 hmem]
    refine ⟨by simpa using hne, h, fun hopen => ?_⟩
    exact absurd (hclosed.symm.trans hopen) (by decide)

theorem isToken_of_mem_tokens {text token : Text} (h : token ∈ tokens text) : IsToken token := by
  induction text using break_induction with
  | unbroken text hall =>
    rw [tokens_unbroken hall] at h
    split at h
    · have hunblank := Text.unblank_of_mem_words h
      exact ⟨Text.ne_nil_of_mem_words h, .of_unblank hunblank {}, fun _ => hunblank⟩
    · rename_i hclosed
      exact isToken_of_mem_tokenOf h hall (Bool.eq_false_iff.2 hclosed)
  | broken front blank back hfront hblank hbreak ih =>
    rw [tokens_broken hfront hblank hbreak] at h
    rcases List.mem_append.1 h with h | h
    · exact isToken_of_mem_tokenOf h hfront (by rw [hbreak]; rfl)
    · exact ih h

end ClassAudit.ClassList
