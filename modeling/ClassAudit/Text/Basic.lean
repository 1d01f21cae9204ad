/-!
# Text

Sources, tokens, names and paths are lists of characters, so that every scanner of the library
recurses on its input. This module holds the cuts that the scanners share, each with the equation
that says what was cut.
-/

namespace ClassAudit

/-- A piece of text, one element for each code point. -/
abbrev Text := List Char

-- Named, so that every test for a member of a list of texts rests on one proof.
instance : LawfulBEq Text := List.instLawfulBEq

namespace Text

/-- A word list of the library, written as string literals. -/
def table (words : List String) : List Text :=
  words.map String.toList

/-- What follows `lead`, if the text starts with `lead`. -/
def after? : (text lead : Text) → Option Text
  | text, [] => some text
  | [], _ :: _ => none
  | d :: text, c :: lead => if c = d then after? text lead else none

/-- What precedes `tail`, if the text ends with `tail`. -/
def before? (text tail : Text) : Option Text :=
  (after? text.reverse tail.reverse).map List.reverse

/-- Whether the text starts with `lead`. -/
def startsWith (text lead : Text) : Bool :=
  (text.after? lead).isSome

/-- What follows the first of the leads that the text starts with. -/
def afterAny? (text : Text) (leads : List Text) : Option Text :=
  leads.findSome? text.after?

/-- The parts before and after the first `mark`. -/
def cut? (mark : Char) : Text → Option (Text × Text)
  | [] => none
  | c :: rest =>
    if c = mark then some ([], rest)
    else (cut? mark rest).map fun parts => (c :: parts.1, parts.2)

/-- The parts before and after the last `mark`. -/
def cutLast? (mark : Char) (text : Text) : Option (Text × Text) :=
  (cut? mark text.reverse).map fun parts => (parts.2.reverse, parts.1.reverse)

/-- The parts before and after the first occurrence of `part`. -/
def breakOn? : (text part : Text) → Option (Text × Text)
  | [], part => (after? [] part).map ([], ·)
  | c :: text, part =>
    match after? (c :: text) part with
    | some rest => some ([], rest)
    | none => (breakOn? text part).map fun parts => (c :: parts.1, parts.2)

/-- Whether `part` occurs in the text. -/
def includes (text part : Text) : Bool :=
  (text.breakOn? part).isSome

/-- Whether a character is a letter or digit of ASCII, a hyphen or an underscore. -/
def isPlainNameChar (c : Char) : Bool :=
  c.isAlphanum || c == '-' || c == '_'

/-- Whether a character is ASCII. -/
def isAscii (c : Char) : Bool :=
  c.toNat < 128

/-- The value of a hexadecimal digit of either letter case. -/
def hexValue? (c : Char) : Option Nat :=
  let code := c.toNat
  if 48 ≤ code ∧ code ≤ 57 then some (code - 48)
  else if 97 ≤ code ∧ code ≤ 102 then some (code - 87)
  else if 65 ≤ code ∧ code ≤ 70 then some (code - 55)
  else none

/-- Whether a character is a hexadecimal digit. -/
def isHexDigit (c : Char) : Bool :=
  (hexValue? c).isSome

/-- The number that a text of digits writes in a base up to sixteen. -/
def valueIn (base : Nat) (digits : Text) : Nat :=
  digits.foldl (fun value c => value * base + (hexValue? c).getD 0) 0

/-- The number that a text of decimal digits writes. -/
def decimal (digits : Text) : Nat :=
  valueIn 10 digits

/-- The character with a code point, if the number is one. -/
def charOfCode? (code : Nat) : Option Char :=
  if code.isValidChar then some (Char.ofNat code) else none

/-- The number of bytes of the text in UTF-8. -/
def byteSize : Text → Nat
  | [] => 0
  | c :: rest => c.utf8Size + byteSize rest

/-- Code point order of texts, the shorter first. -/
def before : Text → Text → Bool
  | _, [] => false
  | [], _ :: _ => true
  | a :: s, b :: t => if a = b then before s t else a.toNat < b.toNat

/-- A condition on all characters of a text is decided along the text. -/
instance (priority := 1100) decidableForallMem (text : Text) (p : Char → Prop)
    [DecidablePred p] : Decidable (∀ c ∈ text, p c) :=
  List.decidableBAll p text

/-! ## What the cuts cut -/

theorem after?_eq_some_iff {text lead rest : Text} :
    text.after? lead = some rest ↔ text = lead ++ rest := by
  induction lead generalizing text with
  | nil => simp [after?, eq_comm]
  | cons c lead ih =>
    cases text with
    | nil => simp [after?]
    | cons d text =>
      by_cases h : c = d
      · simp [after?, h, ih]
      · simp [after?, h, eq_comm]

theorem after?_append {text lead behind : Text} (h : text.after? lead = some behind)
    (rest : Text) : (text ++ rest).after? lead = some (behind ++ rest) := by
  rw [after?_eq_some_iff] at h ⊢
  rw [h, List.append_assoc]

theorem startsWith_iff {text lead : Text} : text.startsWith lead ↔ lead <+: text := by
  unfold startsWith
  rw [Option.isSome_iff_exists]
  constructor
  · rintro ⟨rest, hrest⟩
    exact ⟨rest, (after?_eq_some_iff.1 hrest).symm⟩
  · rintro ⟨rest, hrest⟩
    exact ⟨rest, after?_eq_some_iff.2 hrest.symm⟩

theorem before?_eq_some_iff {text tail rest : Text} :
    text.before? tail = some rest ↔ text = rest ++ tail := by
  simp only [before?, Option.map_eq_some_iff, after?_eq_some_iff]
  constructor
  · rintro ⟨front, h, rfl⟩
    simpa using congrArg List.reverse h
  · rintro rfl
    exact ⟨rest.reverse, by simp, by simp⟩

theorem cut?_eq_some_iff {mark : Char} {text front rest : Text} :
    cut? mark text = some (front, rest) ↔ text = front ++ mark :: rest ∧ mark ∉ front := by
  induction text generalizing front with
  | nil => simp [cut?]
  | cons c text ih =>
    by_cases h : c = mark
    · subst h
      cases front with
      | nil => simp [cut?]
      | cons d front => simp [cut?]; rintro rfl; simp
    · cases front with
      | nil => simp [cut?, h]
      | cons d front =>
        have := @ih front
        simp [cut?, h] at this ⊢
        grind

theorem cut?_eq_none_iff {mark : Char} {text : Text} : cut? mark text = none ↔ mark ∉ text := by
  induction text with
  | nil => simp [cut?]
  | cons c text ih =>
    by_cases h : c = mark
    · simp [cut?, h]
    · simp [cut?, h, ih, Ne.symm h]

theorem cutLast?_eq_some_iff {mark : Char} {text front rest : Text} :
    cutLast? mark text = some (front, rest) ↔ text = front ++ mark :: rest ∧ mark ∉ rest := by
  unfold cutLast?
  constructor
  · intro h
    obtain ⟨⟨after, before⟩, hcut, hparts⟩ := Option.map_eq_some_iff.1 h
    obtain ⟨htext, hmark⟩ := cut?_eq_some_iff.1 hcut
    obtain ⟨rfl, rfl⟩ := Prod.mk.inj hparts
    refine ⟨?_, by simpa using hmark⟩
    simpa using congrArg List.reverse htext
  · rintro ⟨rfl, hmark⟩
    have hcut : cut? mark (front ++ mark :: rest).reverse = some (rest.reverse, front.reverse) :=
      cut?_eq_some_iff.2 ⟨by simp, by simpa using hmark⟩
    rw [hcut]
    simp

theorem breakOn?_eq_append {text part front rest : Text}
    (h : text.breakOn? part = some (front, rest)) : text = front ++ part ++ rest := by
  induction text generalizing front with
  | nil =>
    obtain ⟨tail, htail, hparts⟩ := Option.map_eq_some_iff.1 h
    obtain ⟨rfl, rfl⟩ := Prod.mk.inj hparts
    exact after?_eq_some_iff.1 htail
  | cons c text ih =>
    rw [breakOn?] at h
    split at h
    · rename_i tail htail
      obtain ⟨rfl, rfl⟩ := Prod.mk.inj (Option.some.inj h)
      exact after?_eq_some_iff.1 htail
    · obtain ⟨⟨front', rest'⟩, hlater, hparts⟩ := Option.map_eq_some_iff.1 h
      obtain ⟨rfl, rfl⟩ := Prod.mk.inj hparts
      rw [ih hlater]
      rfl

theorem includes_iff_isInfix {text part : Text} : text.includes part = true ↔ part <:+: text := by
  constructor
  · intro h
    obtain ⟨⟨front, back⟩, hbreak⟩ := Option.isSome_iff_exists.1 h
    exact ⟨front, back, (breakOn?_eq_append hbreak).symm⟩
  · intro h
    induction text with
    | nil =>
      obtain rfl := List.infix_nil.1 h
      rfl
    | cons c text ih =>
      unfold includes at ih ⊢
      rw [breakOn?]
      split
      · rfl
      · rename_i hafter
        rw [Option.isSome_map]
        apply ih
        rcases List.infix_cons_iff.1 h with h | h
        · obtain ⟨rest, hrest⟩ := h
          rw [after?_eq_some_iff.2 hrest.symm] at hafter
          cases hafter
        · exact h

theorem mem_of_includes {text part : Text} (h : text.includes part) {c : Char} (hc : c ∈ part) :
    c ∈ text :=
  (includes_iff_isInfix.1 h).subset hc

/-! ## Parts beside a mark -/

theorem prefix_of_prefix_mark {mark : Char} {part front back : Text} (hmark : mark ∉ part)
    (h : part <+: front ++ mark :: back) : part <+: front := by
  rcases List.prefix_or_prefix_of_prefix h (List.prefix_append front (mark :: back)) with h' | h'
  · exact h'
  · obtain ⟨rest, rfl⟩ := h'
    rw [List.prefix_append_right_inj] at h
    cases rest with
    | nil => simp
    | cons c rest =>
      obtain ⟨rfl, -⟩ := List.cons_prefix_cons.1 h
      exact absurd (by simp) hmark

/-- A part without a mark lies on one side of the mark. -/
theorem infix_mark_iff {mark : Char} {part : Text} (hmark : mark ∉ part) (hpart : part ≠ [])
    (front back : Text) :
    part <:+: front ++ mark :: back ↔ part <:+: front ∨ part <:+: back := by
  constructor
  · intro h
    induction front with
    | nil =>
      rcases List.infix_cons_iff.1 h with h | h
      · exact absurd (List.prefix_nil.1 (prefix_of_prefix_mark hmark h)) hpart
      · exact .inr h
    | cons c front ih =>
      rcases List.infix_cons_iff.1 h with h | h
      · exact .inl (prefix_of_prefix_mark hmark h).isInfix
      · exact (ih h).imp_left fun hfront => List.infix_cons hfront
  · rintro (h | h)
    · exact h.trans (List.prefix_append _ _).isInfix
    · exact h.trans ((List.suffix_cons mark back).trans (List.suffix_append _ _)).isInfix

/-! ## Code point order -/

theorem before_irrefl (s : Text) : before s s = false := by
  induction s with
  | nil => rfl
  | cons a s ih => simp [before, ih]

theorem before_trans {s t u : Text} (hst : before s t) (htu : before t u) : before s u := by
  induction s generalizing t u with
  | nil => cases t <;> cases u <;> simp_all [before]
  | cons a s ih =>
    cases t with
    | nil => simp [before] at hst
    | cons b t =>
      cases u with
      | nil => simp [before] at htu
      | cons c u =>
        simp only [before] at hst htu ⊢
        split at hst <;> split at htu <;> simp_all
        · exact ih hst htu
        · grind

theorem before_trichotomy (s t : Text) : before s t ∨ s = t ∨ before t s := by
  induction s generalizing t with
  | nil => cases t <;> simp [before]
  | cons a s ih =>
    cases t with
    | nil => simp [before]
    | cons b t =>
      by_cases h : a = b
      · subst h
        simpa [before] using ih t
      · have hne : a.toNat ≠ b.toNat := fun he => h (Char.toNat_inj.1 he)
        simp [before, h, Ne.symm h]
        omega

end Text

end ClassAudit
