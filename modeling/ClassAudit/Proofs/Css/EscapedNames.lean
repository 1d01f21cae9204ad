import ClassAudit.Proofs.Css.SelectorList
import ClassAudit.Proofs.Markup.SpacedNames
import ClassAudit.Proofs.Utility.TopLevel
/-!
# Class names written with escapes

Any text is a class name if it is escaped: a character stands as it is, behind a
backslash, or as a backslash, its code in hexadecimal digits and a blank.  This
module writes names so and reads them back, and says where the blanks, commas
and brackets of a written name come from.
-/

namespace ClassAudit.Css

/-- How a character of a name is written. -/
inductive Spelling where
  | verbatim
  | marked
  | coded
  deriving DecidableEq

def Spelling.write : Spelling → Char → Text
  | .verbatim, c => [c]
  | .marked, c => ['\\', c]
  | .coded, c => '\\' :: (Nat.toDigits 16 c.toNat ++ [' '])

def isControl (c : Char) : Bool :=
  c.toNat < 0x20 || c.toNat == 0x7F

/-- The spelling of a character; where a digit may not lead, it is coded. -/
def spellingOf (leads : Bool) (c : Char) : Spelling :=
  if isControl c || (leads && c.isDigit) then .coded
  else if c.isAlphanum || c == '-' || c == '_' || 0x80 ≤ c.toNat then .verbatim
  else .marked

/-- The characters of a name with their spellings.  The first character leads, and so does the
second behind a hyphen; a lone hyphen is marked. -/
def spelled : Text → List (Char × Spelling)
  | [] => []
  | ['-'] => [('-', .marked)]
  | '-' :: c :: rest =>
    ('-', .verbatim) :: (c, spellingOf true c) :: rest.map fun d => (d, spellingOf false d)
  | c :: rest => (c, spellingOf true c) :: rest.map fun d => (d, spellingOf false d)

def spell (parts : List (Char × Spelling)) : Text :=
  parts.flatMap fun part => part.2.write part.1

/-- A name as it is written in a selector. -/
def escape (name : Text) : Text :=
  spell (spelled name)

example : escape "-1:a b\n".toList = "-\\31 \\:a\\ b\\a ".toList := by decide

theorem spell_cons (c : Char) (spelling : Spelling) (parts : List (Char × Spelling)) :
    spell ((c, spelling) :: parts) = spelling.write c ++ spell parts := rfl

theorem spell_append (front back : List (Char × Spelling)) :
    spell (front ++ back) = spell front ++ spell back :=
  List.flatMap_append

theorem map_fst_spelled (name : Text) : (spelled name).map Prod.fst = name := by
  fun_cases spelled name <;> simp [Function.comp_def]

theorem spelled_ne_nil {name : Text} (h : name ≠ []) : spelled name ≠ [] := by
  intro hnil
  rw [← map_fst_spelled name, hnil] at h
  exact h rfl

/-! ## Reading back -/

/-- A part that a reader of names takes for one character. -/
def Readable : Char × Spelling → Prop
  | (c, .verbatim) => Selector.isNameChar c = true
  | (c, .marked) => Text.isHexDigit c = false ∧ isControl c = false
  | (c, .coded) => isControl c = true ∨ c.isDigit = true

theorem toNat_of_isDigit {c : Char} (h : c.isDigit = true) : 48 ≤ c.toNat ∧ c.toNat ≤ 57 := by
  simp only [Char.isDigit, ge_iff_le, Bool.and_eq_true, decide_eq_true_eq,
    UInt32.le_iff_toNat_le] at h
  exact h

theorem isPlainNameChar_of_isHexDigit {c : Char} (h : Text.isHexDigit c = true) :
    Text.isPlainNameChar c = true := by
  have hbounds : 48 ≤ c.toNat ∧ c.toNat ≤ 57 ∨ 97 ≤ c.toNat ∧ c.toNat ≤ 102 ∨
      65 ≤ c.toNat ∧ c.toNat ≤ 70 := by
    unfold Text.isHexDigit Text.hexValue? at h
    simp only at h
    split at h
    · omega
    · split at h
      · omega
      · split at h
        · omega
        · exact absurd h (by decide)
  rw [Text.isPlainNameChar_iff]
  omega

theorem readable_spellingOf (leads : Bool) (c : Char) : Readable (c, spellingOf leads c) := by
  unfold spellingOf
  split
  · rename_i hcoded
    rw [Bool.or_eq_true, Bool.and_eq_true] at hcoded
    exact hcoded.imp id And.right
  · split
    · rename_i hverbatim
      simp only [Readable, Selector.isNameChar, Text.isPlainNameChar, Text.isAscii,
        Bool.or_eq_true, Bool.not_eq_true', decide_eq_true_eq, decide_eq_false_iff_not,
        Nat.not_lt] at hverbatim ⊢
      exact hverbatim
    · rename_i hcoded hmarked
      rw [Bool.or_eq_true, not_or] at hcoded
      refine ⟨?_, Bool.eq_false_iff.2 hcoded.1⟩
      rw [Bool.eq_false_iff]
      intro hhex
      apply hmarked
      have hname := isPlainNameChar_of_isHexDigit hhex
      rw [Text.isPlainNameChar] at hname
      rw [hname, Bool.true_or]

theorem readable_spelled (name : Text) : ∀ part ∈ spelled name, Readable part := by
  have hrest : ∀ rest : Text, ∀ part ∈ rest.map fun d => (d, spellingOf false d),
      Readable part := by
    intro rest part hpart
    obtain ⟨d, -, rfl⟩ := List.mem_map.1 hpart
    exact readable_spellingOf false d
  fun_cases spelled name with
  | case1 => exact List.forall_mem_nil _
  | case2 => exact List.forall_mem_singleton.2 ⟨rfl, rfl⟩
  | case3 c rest =>
    refine List.forall_mem_cons.2 ⟨rfl, List.forall_mem_cons.2 ⟨?_, hrest rest⟩⟩
    exact readable_spellingOf true c
  | case4 c rest _ _ =>
    exact List.forall_mem_cons.2 ⟨readable_spellingOf true c, hrest rest⟩

/-- The digits of the code of an ASCII character, which a reader takes all and only. -/
theorem toDigits_spec : ∀ code < 128, (∀ c ∈ Nat.toDigits 16 code, Text.isHexDigit c = true) ∧
    (Nat.toDigits 16 code).length ≤ 6 ∧ Nat.toDigits 16 code ≠ [] ∧
    Text.valueIn 16 (Nat.toDigits 16 code) = code := by
  decide

theorem toNat_of_isControl {c : Char} (h : isControl c = true) :
    c.toNat < 32 ∨ c.toNat = 127 := by
  simpa [isControl] using h

theorem toNat_lt_of_coded {c : Char} (h : Readable (c, .coded)) : c.toNat < 128 := by
  rcases h with hcontrol | hdigit
  · have := toNat_of_isControl hcontrol
    omega
  · have := toNat_of_isDigit hdigit
    omega

namespace Selector

theorem charOfCode_toNat (c : Char) : charOfCode c.toNat = c := by
  have hvalid : c.toNat.isValidChar := c.valid
  unfold charOfCode Text.charOfCode?
  rw [if_pos hvalid, Option.getD_some, Char.ofNat_toNat]

/-- Up to six digits are read to their end, and one blank behind them. -/
theorem readEscape?_digits {digits tail : Text} (hhex : ∀ c ∈ digits, Text.isHexDigit c = true)
    (hlength : digits.length ≤ 6) (hne : digits ≠ [])
    (htail : ∀ d ∈ tail.head?, Text.isHexDigit d = false) :
    readEscape? (digits ++ tail) =
      some (charOfCode (Text.valueIn 16 digits), dropSpace tail) := by
  have htake : hexDigits (digits ++ tail) = digits := by
    unfold hexDigits
    have hstop : tail.takeWhile Text.isHexDigit = [] := by
      cases tail with
      | nil => rfl
      | cons d tail => exact List.takeWhile_cons_of_neg (by simp [htail d rfl])
    rw [List.takeWhile_append_of_pos hhex, hstop, List.append_nil, List.take_of_length_le hlength]
  have hdrop : (digits ++ tail).drop digits.length = tail := List.drop_left
  cases digits with
  | nil => exact absurd rfl hne
  | cons d digits =>
    have hd : Text.isHexDigit d = true := hhex d (by simp)
    rw [List.cons_append] at htake hdrop ⊢
    rw [readEscape?, if_pos hd]
    simp only [htake, hdrop]

/-- The code of a character is read to its end, and one blank behind it. -/
theorem readEscape?_coded {c : Char} (h : Readable (c, .coded)) {tail : Text}
    (htail : ∀ d ∈ tail.head?, Text.isHexDigit d = false) :
    readEscape? (Nat.toDigits 16 c.toNat ++ tail) = some (c, dropSpace tail) := by
  obtain ⟨hhex, hlength, hne, hvalue⟩ := toDigits_spec c.toNat (toNat_lt_of_coded h)
  rw [readEscape?_digits hhex hlength hne htail, hvalue, charOfCode_toNat]

theorem readName?_backslash {text later : Text} {c : Char}
    (h : readEscape? text = some (c, later)) :
    readName? ('\\' :: text) =
      (readName? later).map fun name => ((c, true) :: name.1, name.2) := by
  rw [readName?, if_pos rfl]
  split
  · rename_i hnone
    rw [h] at hnone
    cases hnone
  · rename_i hsome
    rw [h] at hsome
    cases hsome
    rfl

theorem readName?_verbatim {c : Char} (h : isNameChar c = true) (tail : Text) :
    readName? (c :: tail) =
      (readName? tail).map fun name => ((c, false) :: name.1, name.2) := by
  have hescape : c ≠ '\\' := by
    rintro rfl
    exact absurd h (by decide)
  rw [readName?, if_neg hescape, if_pos h]

theorem readName?_marked {c : Char} (h : Text.isHexDigit c = false) (tail : Text) :
    readName? ('\\' :: c :: tail) =
      (readName? tail).map fun name => ((c, true) :: name.1, name.2) := by
  apply readName?_backslash
  rw [readEscape?, if_neg (by simp [h])]

theorem readName?_part {part : Char × Spelling} (h : Readable part) (tail : Text) :
    readName? (part.2.write part.1 ++ tail) =
      (readName? tail).map fun name =>
        ((part.1, decide (part.2 ≠ .verbatim)) :: name.1, name.2) := by
  obtain ⟨c, spelling⟩ := part
  cases spelling with
  | verbatim => exact readName?_verbatim h tail
  | marked => exact readName?_marked h.1 tail
  | coded =>
    have hblank : ∀ d ∈ (' ' :: tail).head?, Text.isHexDigit d = false := by
      intro d hd
      rw [← Option.some.inj hd]
      decide
    have hcode := readEscape?_coded h hblank
    simp only [Spelling.write, List.cons_append, List.append_assoc, List.nil_append]
    exact readName?_backslash hcode

/-- The characters of parts, and whether a backslash stands before them. -/
def nameChars (parts : List (Char × Spelling)) : List NameChar :=
  parts.map fun part => (part.1, decide (part.2 ≠ .verbatim))

theorem readName?_spell {parts : List (Char × Spelling)} (h : ∀ part ∈ parts, Readable part)
    (tail : Text) : readName? (spell parts ++ tail) =
      (readName? tail).map fun name => (nameChars parts ++ name.1, name.2) := by
  induction parts with
  | nil =>
    rw [show spell [] ++ tail = tail from rfl]
    cases readName? tail <;> rfl
  | cons part parts ih =>
    have hlater := ih fun other hother => h other (by simp [hother])
    rw [show spell (part :: parts) = part.2.write part.1 ++ spell parts from rfl,
      List.append_assoc, readName?_part (h part (by simp)), hlater, Option.map_map]
    rfl

theorem startsWell_spelled {name : Text} (hne : name ≠ []) :
    startsWell (nameChars (spelled name)) = true := by
  have hleads : ∀ c : Char,
      (decide (spellingOf true c ≠ .verbatim) || !c.isDigit) = true := by
    intro c
    cases hdigit : c.isDigit with
    | false => simp
    | true => simp [spellingOf, hdigit]
  fun_cases spelled name with
  | case1 => exact absurd rfl hne
  | case2 => rfl
  | case3 c rest => exact hleads c
  | case4 c rest hlone hpair =>
    have hc : c ≠ '-' := by
      intro hhyphen
      cases rest with
      | nil => exact hlone hhyphen rfl
      | cons d rest => exact hpair d rest hhyphen rfl
    simp only [nameChars, List.map_cons]
    rw [startsWell]
    · exact hleads c
    · exact fun _ hhyphen _ => hc hhyphen
    · exact fun _ _ _ _ hhyphen _ => hc hhyphen

theorem classesFrom_dot {text later : Text} {name : List NameChar}
    (h : readName? text = some (name, later)) (parens : Nat) :
    classesFrom parens ('.' :: text) =
      if startsWell name then (classesFrom parens later).map (name.map Prod.fst :: ·)
      else .error .badName := by
  rw [classesFrom]
  simp only [Char.reduceEq, if_false, if_true]
  split
  · rename_i hname
    rw [h] at hname
    cases hname
    rfl
  · rename_i hname
    rw [h] at hname
    cases hname

theorem classes_dot {text : Text} {name : List NameChar} (h : readName? text = some (name, [])) :
    classes ('.' :: text) =
      if startsWell name then .ok [name.map Prod.fst] else .error .badName := by
  unfold classes
  rw [classesFrom_dot h, classesFrom]
  rfl

theorem classes_dot_dangling {text : Text} (h : readName? text = none) :
    classes ('.' :: text) = .error .danglingEscape := by
  unfold classes
  rw [classesFrom]
  simp only [Char.reduceEq, if_false, if_true]
  split
  · rename_i hname
    rw [h] at hname
    cases hname
  · rfl

theorem map_fst_nameChars (parts : List (Char × Spelling)) :
    (nameChars parts).map Prod.fst = parts.map Prod.fst := by
  simp [nameChars, Function.comp_def]

end Selector

/-! ## Commas and brackets -/

theorem toNat_cases_of_coded {c : Char} (h : Readable (c, .coded)) :
    c.toNat < 32 ∨ c.toNat = 127 ∨ 48 ≤ c.toNat ∧ c.toNat ≤ 57 := by
  rcases h with hcontrol | hdigit
  · exact (toNat_of_isControl hcontrol).imp id Or.inl
  · exact .inr (.inr (toNat_of_isDigit hdigit))

theorem ne_of_coded {c d : Char} (h : Readable (c, .coded))
    (hd : 32 ≤ d.toNat ∧ d.toNat < 48 ∨ 57 < d.toNat ∧ d.toNat < 127) : c ≠ d := by
  rintro rfl
  have := toNat_cases_of_coded h
  omega

theorem nestingAfter_of_ne {c : Char} (hopen : c ≠ '[' ∧ c ≠ '(') (hclose : c ≠ ']' ∧ c ≠ ')')
    (nesting : Nat) : nestingAfter nesting c = nesting := by
  unfold nestingAfter
  rw [if_neg (by simp [hopen]), if_neg (by simp [hclose])]

/-- The characters that a coded one is written with. -/
theorem mem_write_coded {c d : Char} (h : Readable (c, .coded)) (hd : d ∈ Spelling.write .coded c) :
    d = '\\' ∨ Text.isPlainNameChar d = true ∨ d = ' ' := by
  have hhex := (toDigits_spec c.toNat (toNat_lt_of_coded h)).1
  simp only [Spelling.write, List.mem_cons, List.mem_append, List.not_mem_nil, or_false] at hd
  exact hd.imp id (Or.imp (fun hdigit => isPlainNameChar_of_isHexDigit (hhex d hdigit)) id)

theorem ne_of_mem_write_coded {c d e : Char} (h : Readable (c, .coded))
    (hd : d ∈ Spelling.write .coded c)
    (he : e ≠ '\\' ∧ Text.isPlainNameChar e = false ∧ e ≠ ' ') : d ≠ e := by
  rintro rfl
  rcases mem_write_coded h hd with hescape | hname | hblank
  · exact he.1 hescape
  · rw [he.2.1] at hname
    exact absurd hname (by decide)
  · exact he.2.2 hblank

theorem nestingBehind_inert {text : Text}
    (h : ∀ c ∈ text, (c ≠ '[' ∧ c ≠ '(') ∧ c ≠ ']' ∧ c ≠ ')') (nesting : Nat) :
    nestingBehind nesting text = nesting := by
  unfold nestingBehind
  induction text with
  | nil => rfl
  | cons c text ih =>
    obtain ⟨hopen, hclose⟩ := h c (by simp)
    rw [List.foldl_cons, nestingAfter_of_ne hopen hclose]
    exact ih fun d hd => h d (by simp [hd])

/-- A part changes the nesting as its character does, and shows a comma where that is one. -/
theorem write_part {part : Char × Spelling} (h : Readable part) (nesting : Nat) :
    nestingBehind nesting (part.2.write part.1) = nestingAfter nesting part.1 ∧
      (HidesFrom nesting ',' (part.2.write part.1) ↔ HidesFrom nesting ',' [part.1]) := by
  obtain ⟨c, spelling⟩ := part
  cases spelling with
  | verbatim => exact ⟨rfl, Iff.rfl⟩
  | marked =>
    have hescape : nestingAfter nesting '\\' = nesting :=
      nestingAfter_of_ne (by decide) (by decide) nesting
    constructor
    · show nestingAfter (nestingAfter nesting '\\') c = nestingAfter nesting c
      rw [hescape]
    · show HidesFrom nesting ',' ['\\', c] ↔ HidesFrom nesting ',' [c]
      rw [hidesFrom_cons, hescape]
      exact and_iff_right (by simp)
  | coded =>
    constructor
    · have hchar : nestingAfter nesting c = nesting :=
        nestingAfter_of_ne ⟨ne_of_coded h (by decide), ne_of_coded h (by decide)⟩
          ⟨ne_of_coded h (by decide), ne_of_coded h (by decide)⟩ nesting
      rw [hchar]
      apply nestingBehind_inert
      intro d hd
      have hne := fun {e : Char} => @ne_of_mem_write_coded c d e h hd
      exact ⟨⟨hne (by decide), hne (by decide)⟩, hne (by decide), hne (by decide)⟩
    · refine iff_of_true ?_ ?_
      · apply hidesFrom_of_not_mem
        intro hcomma
        exact ne_of_mem_write_coded h hcomma (by decide) rfl
      · apply hidesFrom_of_not_mem
        rw [List.mem_singleton]
        exact (ne_of_coded h (by decide)).symm

theorem spell_nesting {parts : List (Char × Spelling)} (h : ∀ part ∈ parts, Readable part)
    (nesting : Nat) :
    nestingBehind nesting (spell parts) = nestingBehind nesting (parts.map Prod.fst) ∧
      (HidesFrom nesting ',' (spell parts) ↔ HidesFrom nesting ',' (parts.map Prod.fst)) := by
  induction parts generalizing nesting with
  | nil => exact ⟨rfl, Iff.rfl⟩
  | cons part parts ih =>
    obtain ⟨hnesting, hhides⟩ := write_part (h part (by simp)) nesting
    obtain ⟨hlater, hlaterHides⟩ :=
      ih (fun other hother => h other (by simp [hother])) (nestingAfter nesting part.1)
    have hsplit : spell (part :: parts) = part.2.write part.1 ++ spell parts := rfl
    have hnames : (part :: parts).map Prod.fst = [part.1] ++ parts.map Prod.fst := rfl
    have hone : nestingBehind nesting [part.1] = nestingAfter nesting part.1 := rfl
    rw [hsplit, hnames, nestingBehind_append, nestingBehind_append, hidesFrom_append,
      hidesFrom_append, hnesting, hhides, hone, hlater, hlaterHides]
    exact ⟨rfl, Iff.rfl⟩

end ClassAudit.Css
