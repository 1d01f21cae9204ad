import ClassAudit.Proofs.Css.EscapedNames
import Mathlib.Data.List.Induction
import Mathlib.Data.Nat.Digits.Defs
/-!
# Selectors written item by item

A selector is a sequence of classes, plain texts, attributes and groups in
parentheses, nested to any depth.  Each character of a class name is written in
one of three ways.  The reader finds the names as they were before they were
written, unless one of them starts as no name may.

The reader does not know where an item ends.  What makes the items readable one
by one is that none of them starts with a character that could continue a name
(`EndsName`), and that a code brings its own blank along.
-/

namespace ClassAudit.Css

/-- A hexadecimal digit in either letter case. -/
structure HexDigit where
  value : Fin 16
  upper : Bool
  deriving DecidableEq

namespace HexDigit

def char (digit : HexDigit) : Char :=
  (if digit.upper then "0123456789ABCDEF" else "0123456789abcdef").toList.getD digit.value '0'

/-- The number that digits write, the highest digit first. -/
def number (digits : List HexDigit) : Nat :=
  Nat.ofDigits 16 (digits.reverse.map fun digit => digit.value.val)

theorem hexValue?_char (digit : HexDigit) : Text.hexValue? digit.char = some digit.value.val := by
  obtain ⟨value, upper⟩ := digit
  revert value upper
  decide

theorem isHexDigit_char (digit : HexDigit) : Text.isHexDigit digit.char = true := by
  unfold Text.isHexDigit
  rw [hexValue?_char]
  rfl

theorem valueIn_map_char (digits : List HexDigit) :
    Text.valueIn 16 (digits.map char) = number digits := by
  unfold Text.valueIn number
  induction digits using List.reverseRecOn with
  | nil => rfl
  | append_singleton digits last ih =>
    rw [List.map_append, List.foldl_append, ih, List.reverse_append, List.map_append,
      List.reverse_singleton, List.map_singleton, List.map_singleton, List.singleton_append,
      Nat.ofDigits_cons, List.foldl_cons, List.foldl_nil, hexValue?_char, Option.getD_some]
    rw [Nat.mul_comm, Nat.add_comm]

end HexDigit

/-- A character of a class name as it is written. -/
inductive NameUnit where
  /-- As it is. -/
  | verbatim (c : Char) (hname : Selector.isNameChar c = true)
  /-- Behind a backslash. -/
  | marked (c : Char) (hmark : Text.isHexDigit c = false)
  /-- As a backslash, one to six digits of its code point and a blank. -/
  | coded (c : Char) (digits : List HexDigit) (hcount : 1 ≤ digits.length ∧ digits.length ≤ 6)
      (hcode : HexDigit.number digits = c.toNat)

namespace NameUnit

/-- The character that a unit stands for. -/
def char : NameUnit → Char
  | verbatim c _ => c
  | marked c _ => c
  | coded c _ _ _ => c

/-- The character of a unit that is not escaped. -/
def bare? : NameUnit → Option Char
  | verbatim c _ => some c
  | marked _ _ => none
  | coded _ _ _ _ => none

def text : NameUnit → Text
  | verbatim c _ => [c]
  | marked c _ => ['\\', c]
  | coded _ digits _ _ => '\\' :: (digits.map HexDigit.char ++ [' '])

/-- A unit as the reader of names gives it. -/
def nameChar (unit : NameUnit) : Selector.NameChar :=
  (unit.char, unit.bare?.isNone)

theorem nameChar_of_bare {unit : NameUnit} {c : Char} (h : unit.bare? = some c) :
    unit.nameChar = (c, false) := by
  cases unit with
  | verbatim d hname => exact congrArg (·, false) (Option.some.inj h)
  | marked => cases h
  | coded => cases h

end NameUnit

/-- A name as it is written. -/
abbrev WrittenName := List NameUnit

namespace WrittenName

def text (name : WrittenName) : Text :=
  name.flatMap NameUnit.text

/-- The name that is written. -/
def decoded (name : WrittenName) : Text :=
  name.map NameUnit.char

/-- A name does not start with an unescaped digit, nor with an unescaped hyphen before such a digit
or before nothing. -/
structure StartsWell (name : WrittenName) : Prop where
  nonempty : name ≠ []
  noDigit : ∀ c rest, name.map NameUnit.bare? = some c :: rest → c.isDigit = false
  noSignedDigit : ∀ c rest, name.map NameUnit.bare? = some '-' :: some c :: rest →
    c.isDigit = false
  noLoneHyphen : name.map NameUnit.bare? ≠ [some '-']

end WrittenName

/-- A text that ends a name before it and holds no class, attribute or group.  No character beyond
ASCII ends a name. -/
structure PlainPart where
  first : Char
  rest : Text
  endsName : Selector.isNameChar first = false
  inert : ∀ c ∈ first :: rest, c ∉ ['.', '\\', '[', ']', '(', ')']

/-- What stands between the brackets of an attribute. -/
structure AttributePart where
  text : Text
  unbracketed : ∀ c ∈ text, c ≠ '[' ∧ c ≠ ']'

/-- The items of a selector or of a group, the first one in front. -/
inductive SelectorItems where
  | nil
  | className (name : WrittenName) (next : SelectorItems)
  | plain (part : PlainPart) (next : SelectorItems)
  | bracketed (part : AttributePart) (next : SelectorItems)
  | group (inner next : SelectorItems)

namespace SelectorItems

def text : SelectorItems → Text
  | nil => []
  | className name next => '.' :: (WrittenName.text name ++ next.text)
  | plain part next => part.first :: part.rest ++ next.text
  | bracketed part next => '[' :: (part.text ++ ']' :: next.text)
  | group inner next => '(' :: (inner.text ++ ')' :: next.text)

/-- The names of the classes at any depth, in order of appearance. -/
def names : SelectorItems → List WrittenName
  | nil => []
  | className name next => name :: next.names
  | plain _ next => next.names
  | bracketed _ next => next.names
  | group inner next => inner.names ++ next.names

-- The blank behind a code parts it from a digit of the name.
example : (group (className [.coded '1' [⟨3, false⟩, ⟨1, false⟩] (by decide) (by decide),
    .verbatim 'a' (by decide), .marked ':' (by decide)] nil) nil).text =
    "(.\\31 a\\:)".toList := by decide

end SelectorItems

namespace Selector

/-! ## One name -/

/-- The text cannot continue a name before it. -/
def EndsName (text : Text) : Prop :=
  ∀ c ∈ text.head?, c ≠ '\\' ∧ isNameChar c = false

theorem readName?_of_endsName {text : Text} (h : EndsName text) :
    readName? text = some ([], text) := by
  cases text with
  | nil => rw [readName?]
  | cons c text =>
    obtain ⟨hescape, hname⟩ := h c rfl
    rw [readName?, if_neg hescape, if_neg (by simp [hname])]

theorem readEscape?_number {digits : List HexDigit} {c : Char}
    (hcount : 1 ≤ digits.length ∧ digits.length ≤ 6) (hcode : HexDigit.number digits = c.toNat)
    (tail : Text) : readEscape? (digits.map HexDigit.char ++ ' ' :: tail) = some (c, tail) := by
  have hhex : ∀ d ∈ digits.map HexDigit.char, Text.isHexDigit d = true := by
    intro d hd
    obtain ⟨digit, -, rfl⟩ := List.mem_map.1 hd
    exact digit.isHexDigit_char
  have hne : digits.map HexDigit.char ≠ [] := by
    intro hnil
    have hempty : digits.length = 0 := by rw [List.map_eq_nil_iff.1 hnil, List.length_nil]
    omega
  have hblank : ∀ d ∈ (' ' :: tail).head?, Text.isHexDigit d = false := by
    intro d hd
    rw [← Option.some.inj hd]
    decide
  rw [readEscape?_digits hhex (by simpa using hcount.2) hne hblank, HexDigit.valueIn_map_char,
    hcode, charOfCode_toNat]
  rfl

theorem readName?_unit (unit : NameUnit) (tail : Text) :
    readName? (unit.text ++ tail) =
      (readName? tail).map fun name => (unit.nameChar :: name.1, name.2) := by
  cases unit with
  | verbatim c hname => exact readName?_verbatim hname tail
  | marked c hmark => exact readName?_marked hmark tail
  | coded c digits hcount hcode =>
    have hescape := readEscape?_number hcount hcode tail
    simp only [NameUnit.text, List.cons_append, List.append_assoc, List.nil_append]
    exact readName?_backslash hescape

/-- A written name is read back, up to a text that ends it. -/
theorem readName?_text (name : WrittenName) {tail : Text} (htail : EndsName tail) :
    readName? (name.text ++ tail) = some (name.map NameUnit.nameChar, tail) := by
  induction name with
  | nil => exact readName?_of_endsName htail
  | cons unit name ih =>
    have hsplit : WrittenName.text (unit :: name) ++ tail =
        unit.text ++ (WrittenName.text name ++ tail) := by
      unfold WrittenName.text
      rw [List.flatMap_cons, List.append_assoc]
    rw [hsplit, readName?_unit, ih]
    rfl

theorem map_fst_nameChar (name : WrittenName) :
    (name.map NameUnit.nameChar).map Prod.fst = name.decoded := by
  rw [List.map_map]
  rfl

theorem startsWell_escaped (c : Char) (rest : List NameChar) :
    startsWell ((c, true) :: rest) = true := by
  rw [startsWell] <;> simp

theorem startsWell_bare {c : Char} (h : c ≠ '-') (rest : List NameChar) :
    startsWell ((c, false) :: rest) = !c.isDigit := by
  rw [startsWell] <;> simp [h]

/-- The reader asks of the start of a name what the rule says. -/
theorem startsWell_nameChar_iff (name : WrittenName) :
    startsWell (name.map NameUnit.nameChar) = true ↔ name.StartsWell := by
  rcases name with _ | ⟨first, name⟩
  · exact iff_of_false (by decide) fun h => h.nonempty rfl
  rw [List.map_cons]
  cases hfirst : first.bare? with
  | none =>
    have hescaped : first.nameChar = (first.char, true) := by simp [NameUnit.nameChar, hfirst]
    rw [hescaped, startsWell_escaped]
    exact iff_of_true rfl ⟨by simp, by simp [hfirst], by simp [hfirst], by simp [hfirst]⟩
  | some c =>
    rw [NameUnit.nameChar_of_bare hfirst]
    by_cases hhyphen : c = '-'
    · subst hhyphen
      rcases name with _ | ⟨second, name⟩
      · exact iff_of_false (by decide) fun h => h.noLoneHyphen (by simp [hfirst])
      rw [List.map_cons]
      cases hsecond : second.bare? with
      | none =>
        have hescaped : second.nameChar = (second.char, true) := by
          simp [NameUnit.nameChar, hsecond]
        rw [hescaped]
        refine iff_of_true rfl ⟨by simp, ?_, by simp [hfirst, hsecond], by simp⟩
        simp [hfirst, show '-'.isDigit = false by decide]
      | some d =>
        rw [NameUnit.nameChar_of_bare hsecond]
        show (!d.isDigit) = true ↔ _
        rw [Bool.not_eq_true']
        constructor
        · intro hdigit
          refine ⟨by simp, ?_, ?_, by simp⟩
          · simp [hfirst, show '-'.isDigit = false by decide]
          · simp [hfirst, hsecond, hdigit]
        · intro h
          exact h.noSignedDigit d (name.map NameUnit.bare?) (by simp [hfirst, hsecond])
    · rw [startsWell_bare hhyphen, Bool.not_eq_true']
      constructor
      · intro hdigit
        refine ⟨by simp, ?_, by simp [hfirst, hhyphen], by simp [hfirst, hhyphen]⟩
        simp [hfirst, hdigit]
      · intro h
        exact h.noDigit c (name.map NameUnit.bare?) (by simp [hfirst])

/-! ## The items one by one -/

theorem classesFrom_inert {text : Text} (h : ∀ c ∈ text, c ∉ ['.', '\\', '[', ']', '(', ')'])
    (parens : Nat) (rest : Text) :
    classesFrom parens (text ++ rest) = classesFrom parens rest := by
  induction text with
  | nil => rfl
  | cons c text ih =>
    have hc := h c (by simp)
    simp only [List.mem_cons, List.not_mem_nil, or_false, not_or] at hc
    obtain ⟨hdot, hescape, hopen, hclose, hleft, hright⟩ := hc
    rw [List.cons_append, classesFrom]
    simp only [hdot, hescape, hopen, hclose, hleft, hright, if_false]
    exact ih fun d hd => h d (by simp [hd])

theorem afterAttribute?_unbracketed {text : Text} (h : ∀ c ∈ text, c ≠ '[' ∧ c ≠ ']')
    (rest : Text) : afterAttribute? 0 (text ++ ']' :: rest) = some rest := by
  induction text with
  | nil => rfl
  | cons c text ih =>
    obtain ⟨hopen, hclose⟩ := h c (by simp)
    rw [List.cons_append, afterAttribute?, if_neg hopen, if_neg hclose]
    exact ih fun d hd => h d (by simp [hd])

theorem classesFrom_attribute (part : AttributePart) (parens : Nat) (rest : Text) :
    classesFrom parens ('[' :: (part.text ++ ']' :: rest)) = classesFrom parens rest := by
  have hafter := afterAttribute?_unbracketed part.unbracketed rest
  rw [classesFrom]
  simp only [Char.reduceEq, if_false, if_true]
  split
  · rename_i later hlater
    rw [hafter] at hlater
    cases hlater
    rfl
  · rename_i hnone
    rw [hafter] at hnone
    cases hnone

theorem classesFrom_open (parens : Nat) (rest : Text) :
    classesFrom parens ('(' :: rest) = classesFrom (parens + 1) rest := by
  rw [classesFrom]
  simp only [Char.reduceEq, if_false, if_true]

theorem classesFrom_close (parens : Nat) (rest : Text) :
    classesFrom (parens + 1) (')' :: rest) = classesFrom parens rest := by
  rw [classesFrom]
  simp only [Char.reduceEq, if_false, if_true, Nat.add_eq_zero_iff, Nat.one_ne_zero, and_false,
    Nat.add_sub_cancel]

end Selector

namespace SelectorItems

open Selector

/-- What the reader makes of items: their names, or the fault of a name. -/
def reading (items : SelectorItems) : Except SelectorFault (List Text) :=
  if items.names.all fun name => startsWell (name.map NameUnit.nameChar) then
    .ok (items.names.map WrittenName.decoded)
  else .error .badName

theorem endsName_append (items : SelectorItems) {rest : Text} (h : EndsName rest) :
    EndsName (items.text ++ rest) := by
  cases items with
  | nil => exact h
  | className name next => simp [EndsName, text]; decide
  | plain part next =>
    have hinert := part.inert part.first (by simp)
    have hescape : part.first ≠ '\\' := by
      intro heq
      simp [heq] at hinert
    simpa [EndsName, text] using ⟨hescape, part.endsName⟩
  | bracketed part next => simp [EndsName, text]; decide
  | group inner next => simp [EndsName, text]; decide

theorem reading_className (name : WrittenName) (next : SelectorItems) :
    (className name next).reading =
      if startsWell (name.map NameUnit.nameChar) then next.reading.map (name.decoded :: ·)
      else .error .badName := by
  unfold reading
  rw [names, List.all_cons]
  cases startsWell (name.map NameUnit.nameChar) with
  | false => rfl
  | true =>
    cases next.names.all fun name => startsWell (name.map NameUnit.nameChar) with
    | false => rfl
    | true => rfl

theorem reading_group (inner next : SelectorItems) :
    (group inner next).reading =
      inner.reading.bind fun names => next.reading.map (names ++ ·) := by
  unfold reading
  rw [names, List.all_append, List.map_append]
  cases inner.names.all fun name => startsWell (name.map NameUnit.nameChar) with
  | false => rfl
  | true =>
    cases next.names.all fun name => startsWell (name.map NameUnit.nameChar) with
    | false => rfl
    | true => rfl

/-- Items in front of a text are read before it, whatever groups are open around them. -/
theorem classesFrom_text (items : SelectorItems) (parens : Nat) {rest : Text}
    (hrest : EndsName rest) :
    classesFrom parens (items.text ++ rest) =
      items.reading.bind fun names => (classesFrom parens rest).map (names ++ ·) := by
  induction items generalizing parens rest with
  | nil =>
    show classesFrom parens rest = (classesFrom parens rest).map ([] ++ ·)
    cases classesFrom parens rest with
    | error fault => rfl
    | ok found => rfl
  | className name next ih =>
    have hname := readName?_text name (next.endsName_append hrest)
    rw [text, List.cons_append, List.append_assoc, classesFrom_dot hname, map_fst_nameChar,
      reading_className, ih parens hrest]
    split
    · cases next.reading with
      | error fault => rfl
      | ok names =>
        show ((classesFrom parens rest).map (names ++ ·)).map (name.decoded :: ·) = _
        cases classesFrom parens rest with
        | error fault => rfl
        | ok found => rfl
    · rfl
  | plain part next ih =>
    rw [text, List.append_assoc, classesFrom_inert part.inert]
    exact ih parens hrest
  | bracketed part next ih =>
    rw [text, List.cons_append, List.append_assoc, List.cons_append, classesFrom_attribute]
    exact ih parens hrest
  | group inner next ihinner ihnext =>
    have hclose : EndsName (')' :: (next.text ++ rest)) := by
      simp only [EndsName, List.head?_cons, Option.mem_def, Option.some.injEq, forall_eq']
      decide
    rw [text, List.cons_append, List.append_assoc, List.cons_append, classesFrom_open,
      ihinner (parens + 1) hclose, classesFrom_close, ihnext parens hrest, reading_group]
    cases inner.reading with
    | error fault => rfl
    | ok names =>
      cases next.reading with
      | error fault => rfl
      | ok later =>
        show ((classesFrom parens rest).map (later ++ ·)).map (names ++ ·) = _
        cases classesFrom parens rest with
        | error fault => rfl
        | ok found => exact congrArg Except.ok (List.append_assoc names later found).symm

theorem classes_text (items : SelectorItems) : classes items.text = items.reading := by
  have hend : EndsName [] := fun c hc => nomatch hc
  have hall := items.classesFrom_text 0 hend
  rw [List.append_nil, classesFrom, if_pos rfl] at hall
  unfold classes
  rw [hall]
  cases items.reading with
  | error fault => rfl
  | ok names => exact congrArg Except.ok (List.append_nil names)

/-- A selector gives the names that its items write, in order, iff every name starts well. -/
theorem classes_text_eq_names_iff (items : SelectorItems) :
    classes items.text = .ok (items.names.map WrittenName.decoded) ↔
      ∀ name ∈ items.names, name.StartsWell := by
  have hall : (items.names.all fun name => startsWell (name.map NameUnit.nameChar)) = true ↔
      ∀ name ∈ items.names, name.StartsWell := by
    rw [List.all_eq_true]
    exact forall₂_congr fun name _ => startsWell_nameChar_iff name
  rw [classes_text, reading, ← hall]
  split
  · rename_i hwell
    exact iff_of_true rfl hwell
  · rename_i hbad
    exact iff_of_false (by simp) hbad

end SelectorItems

end ClassAudit.Css
