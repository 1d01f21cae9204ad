import ClassAudit.Markup.ClassList
/-!
# Class lists of plain names

Names of letters, digits, hyphens and underscores open no group and escape
nothing, so a class list of such names is cut at its blanks and nowhere else.
-/

namespace ClassAudit

/-- A name of letters and digits of ASCII, hyphens and underscores. -/
structure IsPlainName (name : Text) : Prop where
  nonempty : name ≠ []
  plain : ∀ c ∈ name, Text.isPlainNameChar c

instance (name : Text) : Decidable (IsPlainName name) :=
  decidable_of_iff (name ≠ [] ∧ ∀ c ∈ name, Text.isPlainNameChar c)
    ⟨fun h => ⟨h.1, h.2⟩, fun h => ⟨h.nonempty, h.plain⟩⟩

namespace Text

theorem isPlainNameChar_iff {c : Char} :
    isPlainNameChar c = true ↔
      (((65 ≤ c.toNat ∧ c.toNat ≤ 90 ∨ 97 ≤ c.toNat ∧ c.toNat ≤ 122) ∨
        48 ≤ c.toNat ∧ c.toNat ≤ 57) ∨ c = '-') ∨ c = '_' := by
  unfold isPlainNameChar Char.isAlphanum Char.isAlpha Char.isUpper Char.isLower Char.isDigit
  simp only [Bool.or_eq_true, Bool.and_eq_true, decide_eq_true_eq, ge_iff_le, beq_iff_eq,
    UInt32.le_iff_toNat_le]
  rfl

theorem toNat_of_isPlainNameChar {c : Char} (h : isPlainNameChar c) :
    45 ≤ c.toNat ∧ c.toNat ≤ 122 := by
  rcases isPlainNameChar_iff.1 h with (hletter | rfl) | rfl
  · omega
  · decide
  · decide

theorem not_isBlank_of_isPlainNameChar {c : Char} (h : isPlainNameChar c) : isBlank c = false := by
  obtain ⟨hlo, hhi⟩ := toNat_of_isPlainNameChar h
  rw [Bool.eq_false_iff]
  intro hblank
  simp only [isBlank, blankRanges, List.any_cons, List.any_nil, Bool.or_eq_true,
    Bool.and_eq_true, decide_eq_true_eq, Bool.false_eq_true, or_false] at hblank
  omega

theorem ne_of_isPlainNameChar {c d : Char} (h : isPlainNameChar c)
    (hd : isPlainNameChar d = false) : c ≠ d := by
  rintro rfl
  rw [h] at hd
  cases hd

end Text

namespace ClassList

/-- The texts that write a class list: blanks stand between two names, and may stand around. -/
inductive Spaced : List Text → Text → Prop where
  | nil {blanks : Text} (hblanks : ∀ c ∈ blanks, Text.isBlank c) : Spaced [] blanks
  | cons {blanks name rest : Text} {names : List Text}
      (hblanks : ∀ c ∈ blanks, Text.isBlank c) (hgap : names ≠ [] → rest.startsBlank)
      (hrest : Spaced names rest) : Spaced (name :: names) (blanks ++ (name ++ rest))

theorem tokensFrom_cons {reader : Reader} {c : Char} (hescape : c ≠ '\\') (rest : Text) :
    tokensFrom reader (c :: rest) =
      if Text.isBlank c && !(reader.nest c).inGroup then
        (reader.nest c).token ++ tokensFrom {} rest
      else tokensFrom ((reader.nest c).keep c) rest := by
  rw [tokensFrom]
  rintro d later rfl
  exact absurd rfl hescape

theorem nest_of_ne {reader : Reader} {c : Char} (h : c ∉ ['[', ']', '(', ')']) :
    reader.nest c = reader := by
  simp only [List.mem_cons, List.not_mem_nil, or_false, not_or] at h
  unfold Reader.nest
  split
  · exact absurd rfl h.1
  · exact absurd rfl h.2.1
  · exact absurd rfl h.2.2.1
  · exact absurd rfl h.2.2.2
  · rfl

theorem tokensFrom_blank {current : Text} {c : Char} (hc : Text.isBlank c) (rest : Text) :
    tokensFrom { current := current } (c :: rest) =
      Reader.token { current := current } ++ tokensFrom {} rest := by
  have hnest : Reader.nest { current := current } c = { current := current } := by
    have hbrackets : ∀ d ∈ ['[', ']', '(', ')'], Text.isBlank d = false := by decide
    exact nest_of_ne fun hmem => Text.ne_of_isBlank hc (hbrackets c hmem) rfl
  rw [tokensFrom_cons (Text.ne_of_isBlank hc (by decide)), hnest, hc]
  rfl

theorem tokensFrom_blanks {blanks : Text} (h : ∀ c ∈ blanks, Text.isBlank c) (rest : Text) :
    tokensFrom {} (blanks ++ rest) = tokensFrom {} rest := by
  induction blanks with
  | nil => rfl
  | cons c blanks ih =>
    rw [List.cons_append, tokensFrom_blank (h c (by simp)), ih fun d hd => h d (by simp [hd])]
    rfl

theorem tokensFrom_name {name current : Text} (h : ∀ c ∈ name, Text.isPlainNameChar c)
    (rest : Text) :
    tokensFrom { current := current } (name ++ rest) =
      tokensFrom { current := name.reverse ++ current } rest := by
  induction name generalizing current with
  | nil => rfl
  | cons c name ih =>
    have hc := h c (by simp)
    have hnest : Reader.nest { current := current } c = { current := current } := by
      have hbrackets : ∀ d ∈ ['[', ']', '(', ')'], Text.isPlainNameChar d = false := by decide
      exact nest_of_ne fun hmem => Text.ne_of_isPlainNameChar hc (hbrackets c hmem) rfl
    rw [List.cons_append, tokensFrom_cons (Text.ne_of_isPlainNameChar hc (by decide)), hnest,
      Text.not_isBlank_of_isPlainNameChar hc]
    simp only [Bool.false_and, Bool.false_eq_true, if_false, Reader.keep]
    rw [ih fun d hd => h d (by simp [hd]), List.reverse_cons, List.append_assoc]
    rfl

theorem tokensFrom_ended {current rest : Text} (hne : current ≠ [])
    (hrest : rest = [] ∨ rest.startsBlank) :
    tokensFrom { current := current } rest = current.reverse :: tokensFrom {} rest := by
  have htoken : Reader.token { current := current } = [current.reverse] := by
    simp [Reader.token, hne]
  cases rest with
  | nil => exact htoken
  | cons c rest =>
    have hc : Text.isBlank c := by simpa [Text.startsBlank] using hrest
    rw [tokensFrom_blank hc, htoken, tokensFrom_blank hc]
    rfl

theorem Spaced.startsBlank {rest : Text} (h : Spaced [] rest) : rest = [] ∨ rest.startsBlank := by
  cases h with
  | nil hblanks =>
    cases rest with
    | nil => exact Or.inl rfl
    | cons c rest => exact Or.inr (hblanks c (by simp))

/-- A list of plain names is cut into these names. -/
theorem Spaced.tokens_eq {names : List Text} {text : Text} (h : Spaced names text)
    (hnames : ∀ name ∈ names, IsPlainName name) : tokens text = names := by
  unfold tokens
  induction h with
  | @nil blanks hblanks =>
    have hall := tokensFrom_blanks hblanks []
    rw [List.append_nil] at hall
    rw [hall]
    rfl
  | @cons blanks name rest names hblanks hgap hrest ih =>
    have hname := hnames name (by simp)
    have hended : rest = [] ∨ rest.startsBlank := by
      by_cases hlast : names = []
      · rw [hlast] at hrest
        exact hrest.startsBlank
      · exact Or.inr (hgap hlast)
    rw [tokensFrom_blanks hblanks, tokensFrom_name hname.plain, List.append_nil,
      tokensFrom_ended (by simpa using hname.nonempty) hended, List.reverse_reverse,
      ih fun other hother => hnames other (by simp [hother])]

end ClassList

end ClassAudit
