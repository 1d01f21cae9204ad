import ClassAudit.Json.Basic
/-!
# JSON tokens

The marks, words, numbers and strings of a JSON text.
-/

namespace ClassAudit.Json

/-- A token of a JSON text. -/
inductive Token where
  | openArray
  | closeArray
  | openObject
  | closeObject
  | comma
  | colon
  /-- A word or a number. -/
  | scalar (value : Json)
  | string (text : Option Text)

/-! ## Strings -/

/-- A character of a string or the code that an escape names. -/
inductive StringUnit where
  | char (c : Char)
  | code (value : Nat)

/-- The character that a one-letter escape stands for. -/
def shortEscape? : Char → Option Char
  | '"' => some '"'
  | '\\' => some '\\'
  | '/' => some '/'
  | 'b' => some '\x08'
  | 'f' => some '\x0c'
  | 'n' => some '\n'
  | 'r' => some '\r'
  | 't' => some '\t'
  | _ => none

/-- Reads a string after its opening quote and gives the text after its closing quote. -/
def readString? : Text → Option (List StringUnit × Text)
  | [] => none
  | '"' :: rest => some ([], rest)
  | '\\' :: 'u' :: a :: b :: c :: d :: rest =>
    if [a, b, c, d].all Text.isHexDigit then
      (readString? rest).map fun parts => (.code (Text.valueIn 16 [a, b, c, d]) :: parts.1, parts.2)
    else none
  | '\\' :: c :: rest => do
    let decoded ← shortEscape? c
    (readString? rest).map fun parts => (.char decoded :: parts.1, parts.2)
  | c :: rest =>
    if c.toNat < 0x20 ∨ c = '\\' then none
    else (readString? rest).map fun parts => (.char c :: parts.1, parts.2)

/-- The text of a string; two escapes may make a surrogate pair. -/
def joinUnits? : List StringUnit → Option Text
  | [] => some []
  | .char c :: rest => (joinUnits? rest).map (c :: ·)
  | .code high :: .code low :: rest =>
    if 0xD800 ≤ high ∧ high ≤ 0xDBFF ∧ 0xDC00 ≤ low ∧ low ≤ 0xDFFF then
      let code := 0x10000 + (high - 0xD800) * 0x400 + (low - 0xDC00)
      (joinUnits? rest).map (Char.ofNat code :: ·)
    else do
      let c ← Text.charOfCode? high
      (joinUnits? (.code low :: rest)).map (c :: ·)
  | .code value :: rest => do
    let c ← Text.charOfCode? value
    (joinUnits? rest).map (c :: ·)

/-! ## Numbers -/

/-- Splits off a non-empty run of digits. -/
def readDigits? (text : Text) : Option (Text × Text) :=
  match text.takeWhile Char.isDigit with
  | [] => none
  | digits => some (digits, text.dropWhile Char.isDigit)

/-- Splits off the digits of an integer: zero, or a run that does not start with one. -/
def readInteger? (text : Text) : Option (Text × Text) :=
  match text with
  | '0' :: rest => some (['0'], rest)
  | _ => readDigits? text

/-- Splits off the fraction after an integer, if there is one. -/
def readFraction? : Text → Option (Text × Text)
  | '.' :: rest => (readDigits? rest).map fun parts => ('.' :: parts.1, parts.2)
  | text => some ([], text)

/-- Splits off the exponent after a number, if there is one. -/
def readExponent? (text : Text) : Option (Text × Text) :=
  match text with
  | c :: rest =>
    if c = 'e' ∨ c = 'E' then
      match rest with
      | d :: later =>
        if d = '+' ∨ d = '-' then
          (readDigits? later).map fun parts => (c :: d :: parts.1, parts.2)
        else (readDigits? rest).map fun parts => (c :: parts.1, parts.2)
      | [] => none
    else some ([], text)
  | [] => some ([], text)

/-- Splits off a number without its sign. -/
def readUnsigned? (text : Text) : Option (Text × Text) := do
  let (whole, rest) ← readInteger? text
  let (fraction, rest) ← readFraction? rest
  let (exponent, rest) ← readExponent? rest
  return (whole ++ fraction ++ exponent, rest)

/-- Splits off a number. -/
def readNumber? : Text → Option (Text × Text)
  | '-' :: rest => (readUnsigned? rest).map fun parts => ('-' :: parts.1, parts.2)
  | text => readUnsigned? text

/-! ## Tokens -/

/-- Whether a character may stand between tokens. -/
def isGap (c : Char) : Bool :=
  c == ' ' || c == '\n' || c == '\t' || c == '\r'

/-- Reads a word or a number. -/
def readScalar? (text : Text) : Option (Json × Text) :=
  match text.after? "null".toList, text.after? "true".toList, text.after? "false".toList with
  | some rest, _, _ => some (.null, rest)
  | _, some rest, _ => some (.bool true, rest)
  | _, _, some rest => some (.bool false, rest)
  | _, _, _ => (readNumber? text).map fun parts => (.number parts.1, parts.2)

/-- Reads the token at the head of a text. -/
def readToken? : Text → Option (Token × Text)
  | [] => none
  | '[' :: rest => some (.openArray, rest)
  | ']' :: rest => some (.closeArray, rest)
  | '{' :: rest => some (.openObject, rest)
  | '}' :: rest => some (.closeObject, rest)
  | ',' :: rest => some (.comma, rest)
  | ':' :: rest => some (.colon, rest)
  | '"' :: rest => (readString? rest).map fun parts => (.string (joinUnits? parts.1), parts.2)
  | text => (readScalar? text).map fun parts => (.scalar parts.1, parts.2)

/-- The tokens of a text of at most so many characters. -/
def tokensUpTo? : Nat → Text → Option (List Token)
  | limit, text =>
    match text.dropWhile isGap, limit with
    | [], _ => some []
    | _ :: _, 0 => none
    | start, limit + 1 => do
      let (token, rest) ← readToken? start
      return token :: (← tokensUpTo? limit rest)

/-- The tokens of a text. -/
def tokens? (text : Text) : Option (List Token) :=
  tokensUpTo? text.length text

end ClassAudit.Json
