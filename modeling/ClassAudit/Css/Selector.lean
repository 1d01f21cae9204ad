import ClassAudit.Css.Error
/-!
# Class names in selectors

Reads the class names of a selector. A name may hold escapes: a backslash before a character, or
before up to six hexadecimal digits and an optional blank. Attribute selectors are skipped, and
parentheses are entered.
-/

namespace ClassAudit.Css.Selector

/-- Whether a character belongs to a name without an escape. -/
def isNameChar (c : Char) : Bool :=
  Text.isPlainNameChar c || !Text.isAscii c

/-- The character with a code point; U+FFFD for a number that is none. -/
def charOfCode (code : Nat) : Char :=
  (Text.charOfCode? code).getD '\uFFFD'

/-- The hexadecimal digits at the head of a text, six at most. -/
def hexDigits (text : Text) : Text :=
  (text.takeWhile Text.isHexDigit).take 6

/-- The text without one blank in front. -/
def dropSpace : Text → Text
  | ' ' :: rest => rest
  | text => text

/-- Reads what follows a backslash. -/
def readEscape? : Text → Option (Char × Text)
  | [] => none
  | c :: rest =>
    if Text.isHexDigit c then
      let digits := hexDigits (c :: rest)
      some (charOfCode (Text.valueIn 16 digits), dropSpace ((c :: rest).drop digits.length))
    else some (c, rest)

theorem length_dropSpace (text : Text) : (dropSpace text).length ≤ text.length := by
  unfold dropSpace
  split <;> simp

theorem length_readEscape? {text rest : Text} {c : Char} (h : readEscape? text = some (c, rest)) :
    rest.length < text.length := by
  cases text with
  | nil => simp [readEscape?] at h
  | cons d text =>
    simp only [readEscape?] at h
    split at h
    · rename_i hd
      simp only [Option.some.injEq, Prod.mk.injEq] at h
      obtain ⟨-, rfl⟩ := h
      have hpos : 0 < (hexDigits (d :: text)).length := by simp [hexDigits, hd]
      have := length_dropSpace ((d :: text).drop (hexDigits (d :: text)).length)
      simp only [List.length_drop, List.length_cons] at this ⊢
      omega
    · simp only [Option.some.injEq, Prod.mk.injEq] at h
      obtain ⟨-, rfl⟩ := h
      simp

/-- A character of a name, and whether it was escaped. -/
abbrev NameChar := Char × Bool

/-- Reads a name and gives the text after it; none if it ends in a lone backslash. -/
def readName? (text : Text) : Option (List NameChar × Text) :=
  match text with
  | [] => some ([], [])
  | c :: rest =>
    if c = '\\' then
      match _h : readEscape? rest with
      | none => none
      | some (decoded, later) =>
        (readName? later).map fun name => ((decoded, true) :: name.1, name.2)
    else if isNameChar c then (readName? rest).map fun name => ((c, false) :: name.1, name.2)
    else some ([], c :: rest)
termination_by text.length
decreasing_by
  · have := length_readEscape? _h
    simp only [List.length_cons]
    omega
  · simp

theorem length_readName? {text rest : Text} {name : List NameChar}
    (h : readName? text = some (name, rest)) : rest.length ≤ text.length := by
  fun_induction readName? text generalizing name with
  | case1 => simp_all
  | case2 => simp at h
  | case3 rest' decoded later hesc ih =>
    obtain ⟨⟨name', later'⟩, hname, h⟩ := Option.map_eq_some_iff.1 h
    simp only [Prod.mk.injEq] at h
    obtain ⟨-, rfl⟩ := h
    have := length_readEscape? hesc
    have := ih hname
    simp only [List.length_cons]
    omega
  | case4 c rest' _ _ ih =>
    obtain ⟨⟨name', later'⟩, hname, h⟩ := Option.map_eq_some_iff.1 h
    simp only [Prod.mk.injEq] at h
    obtain ⟨-, rfl⟩ := h
    have := ih hname
    simp only [List.length_cons]
    omega
  | case5 => simp_all

/-- Whether a name starts as a name may: not with a digit, not with a hyphen and a digit, and it
is no lone hyphen. An escaped character is always allowed. -/
def startsWell : List NameChar → Bool
  | [] => false
  | [('-', false)] => false
  | ('-', false) :: (c, escaped) :: _ => escaped || !c.isDigit
  | (c, escaped) :: _ => escaped || !c.isDigit

/-- The text after an attribute selector, given the brackets open beside its own. -/
def afterAttribute? : Nat → Text → Option Text
  | _, [] => none
  | depth, c :: rest =>
    if c = '[' then afterAttribute? (depth + 1) rest
    else if c = ']' then if depth = 0 then some rest else afterAttribute? (depth - 1) rest
    else afterAttribute? depth rest

theorem length_afterAttribute? {depth : Nat} {text rest : Text}
    (h : afterAttribute? depth text = some rest) : rest.length < text.length := by
  induction text generalizing depth with
  | nil => simp [afterAttribute?] at h
  | cons c text ih =>
    simp only [afterAttribute?] at h
    split at h
    · have := ih h
      simp only [List.length_cons]
      omega
    · split at h
      · split at h
        · simp_all
        · have := ih h
          simp only [List.length_cons]
          omega
      · have := ih h
        simp only [List.length_cons]
        omega

/-- The class names of the rest of a selector inside a number of parentheses. -/
def classesFrom (parens : Nat) (text : Text) : Except SelectorFault (List Text) :=
  match text with
  | [] => if parens = 0 then .ok [] else .error .unclosedParenthesis
  | c :: rest =>
    if c = '\\' then classesFrom parens (rest.drop 1)
    else if c = '[' then
      match _h : afterAttribute? 0 rest with
      | some later => classesFrom parens later
      | none => .error .unclosedAttribute
    else if c = ']' then .error .strayBracket
    else if c = '(' then classesFrom (parens + 1) rest
    else if c = ')' then
      if parens = 0 then .error .strayParenthesis else classesFrom (parens - 1) rest
    else if c = '.' then
      match _h : readName? rest with
      | some (name, later) =>
        if startsWell name then (classesFrom parens later).map (name.map Prod.fst :: ·)
        else .error .badName
      | none => .error .danglingEscape
    else classesFrom parens rest
termination_by text.length
decreasing_by
  all_goals try have := length_afterAttribute? _h
  all_goals try have := length_readName? _h
  all_goals simp only [List.length_cons, List.length_drop]
  all_goals omega

/-- The class names of a selector, in order. -/
def classes (selector : Text) : Except SelectorFault (List Text) :=
  classesFrom 0 selector

/-- The parts between the commas outside parentheses and brackets. -/
def splitCommas : Nat → Text → List Text
  | _, [] => [[]]
  | depth, c :: rest =>
    if c = ',' ∧ depth = 0 then [] :: splitCommas 0 rest
    else
      let next :=
        if c = '(' ∨ c = '[' then depth + 1
        else if c = ')' ∨ c = ']' then depth - 1
        else depth
      match splitCommas next rest with
      | part :: parts => (c :: part) :: parts
      | [] => [[c]]

end ClassAudit.Css.Selector
