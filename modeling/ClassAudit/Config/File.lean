import ClassAudit.Config.Options
/-!
# Configuration files

A configuration file holds one setting on each line, in the notation of TOML: a name, an equals
sign, and a text, a list of texts or a truth value. Names may be quoted, texts may be written in
the four ways of that notation, and a list may run over several lines. No option takes any other
value, and none lies in a table, so everything else is refused.
-/

namespace ClassAudit.ConfigFile

/-! ## Texts -/

/-- Whether a character may stand in a comment or text as it is. -/
def isPrintable (c : Char) : Bool :=
  c == '\t' || (0x20 ≤ c.toNat && c.toNat != 0x7F)

/-- Whether a character is a blank within a line. -/
def isLineBlank (c : Char) : Bool :=
  c == ' ' || c == '\t'

/-- The character that a one-letter escape stands for. -/
def shortEscape? : Char → Option Char
  | 'b' => some '\x08'
  | 't' => some '\t'
  | 'n' => some '\n'
  | 'f' => some '\x0c'
  | 'r' => some '\r'
  | '"' => some '"'
  | '\\' => some '\\'
  | _ => none

/-- The character that hexadecimal digits name. -/
def codeEscape? (digits : Text) : Option Char :=
  if digits.all Text.isHexDigit then Text.charOfCode? (Text.valueIn 16 digits) else none

/-- Puts a character in front of a text that is read. -/
def consRead (c : Char) (read : Option (Text × Text)) : Option (Text × Text) :=
  read.map fun parts => (c :: parts.1, parts.2)

/-- Reads a text in double quotes after the first of them. -/
def readQuoted? : Text → Option (Text × Text)
  | [] => none
  | '"' :: rest => some ([], rest)
  | '\\' :: 'u' :: a :: b :: c :: d :: rest => do
    consRead (← codeEscape? [a, b, c, d]) (readQuoted? rest)
  | '\\' :: c :: rest =>
    if c = 'U' then
      match rest with
      | a :: b :: c :: d :: e :: f :: g :: h :: rest => do
        consRead (← codeEscape? [a, b, c, d, e, f, g, h]) (readQuoted? rest)
      | _ => none
    else do consRead (← shortEscape? c) (readQuoted? rest)
  | c :: rest => if isPrintable c ∧ c ≠ '\\' then consRead c (readQuoted? rest) else none

/-- Reads a text in single quotes after the first of them. -/
def readLiteral? : Text → Option (Text × Text)
  | [] => none
  | c :: rest =>
    if c = '\'' then some ([], rest)
    else if isPrintable c then consRead c (readLiteral? rest)
    else none

/-- Ends a text over several lines at a run of three to five quotes: all but the last three belong
to the text. -/
def closeRun? (quote : Char) (text : Text) : Option (Text × Text) :=
  let extra := min ((text.takeWhile (· == quote)).length - 3) 2
  some (List.replicate extra quote, text.drop (extra + 3))

/-- Whether a text starts with two quotes. -/
def startsPair (quote : Char) (text : Text) : Bool :=
  text.startsWith [quote, quote]

/-- Whether a line break follows the blanks at the head of a text. -/
def breaksLine (text : Text) : Bool :=
  match text.dropWhile isLineBlank with
  | '\n' :: _ => true
  | '\r' :: '\n' :: _ => true
  | _ => false

/-- Reads a text over several lines in double quotes. After a backslash at the end of a line, blanks
and line breaks are skipped. -/
def readQuotedLines? : (skipping : Bool) → Text → Option (Text × Text)
  | _, [] => none
  | skipping, '\r' :: '\n' :: rest =>
    if skipping then readQuotedLines? true rest else consRead '\n' (readQuotedLines? false rest)
  | skipping, '\n' :: rest =>
    if skipping then readQuotedLines? true rest else consRead '\n' (readQuotedLines? false rest)
  | _, '"' :: rest =>
    if startsPair '"' rest then closeRun? '"' ('"' :: rest)
    else consRead '"' (readQuotedLines? false rest)
  | _, '\\' :: 'u' :: a :: b :: c :: d :: rest => do
    consRead (← codeEscape? [a, b, c, d]) (readQuotedLines? false rest)
  | _, '\\' :: c :: rest =>
    if c = 'U' then
      match rest with
      | a :: b :: c :: d :: e :: f :: g :: h :: rest => do
        consRead (← codeEscape? [a, b, c, d, e, f, g, h]) (readQuotedLines? false rest)
      | _ => none
    else if breaksLine (c :: rest) then readQuotedLines? true rest
    else do consRead (← shortEscape? c) (readQuotedLines? false rest)
  | skipping, c :: rest =>
    if skipping && isLineBlank c then readQuotedLines? true rest
    else if isPrintable c ∧ c ≠ '\\' then consRead c (readQuotedLines? false rest)
    else none

/-- Reads a text over several lines in single quotes. -/
def readLiteralLines? : Text → Option (Text × Text)
  | [] => none
  | '\r' :: '\n' :: rest => consRead '\n' (readLiteralLines? rest)
  | '\n' :: rest => consRead '\n' (readLiteralLines? rest)
  | c :: rest =>
    if c = '\'' ∧ startsPair '\'' rest then closeRun? '\'' (c :: rest)
    else if isPrintable c then consRead c (readLiteralLines? rest)
    else none

/-- A text without a line break at its head. -/
def dropLineBreak : Text → Text
  | '\n' :: rest => rest
  | '\r' :: '\n' :: rest => rest
  | text => text

/-! ## Tokens -/

/-- A token of a configuration file. -/
inductive Token where
  | lineBreak
  | equals
  | openList
  | closeList
  | comma
  /-- A run of letters, digits, hyphens and underscores. -/
  | word (text : Text)
  /-- A text on one line. -/
  | quoted (text : Text)
  /-- A text over several lines. -/
  | lines (text : Text)
  deriving DecidableEq

/-- Reads the token at the head of a text. -/
def readToken? (text : Text) : Option (Token × Text) :=
  match text with
  | '\n' :: rest => some (.lineBreak, rest)
  | '\r' :: '\n' :: rest => some (.lineBreak, rest)
  | '=' :: rest => some (.equals, rest)
  | '[' :: rest => some (.openList, rest)
  | ']' :: rest => some (.closeList, rest)
  | ',' :: rest => some (.comma, rest)
  | '"' :: '"' :: '"' :: rest =>
    (readQuotedLines? false (dropLineBreak rest)).map fun parts => (.lines parts.1, parts.2)
  | '"' :: rest => (readQuoted? rest).map fun parts => (.quoted parts.1, parts.2)
  | '\'' :: '\'' :: '\'' :: rest =>
    (readLiteralLines? (dropLineBreak rest)).map fun parts => (.lines parts.1, parts.2)
  | '\'' :: rest => (readLiteral? rest).map fun parts => (.quoted parts.1, parts.2)
  | _ =>
    match text.takeWhile Text.isPlainNameChar with
    | [] => none
    | word => some (.word word, text.dropWhile Text.isPlainNameChar)

/-- The text after the blanks and the comment at its head; none if the comment holds a control
character. -/
def skipGap? (text : Text) : Option Text :=
  match text.dropWhile isLineBlank with
  | '#' :: rest =>
    let later := rest.dropWhile isPrintable
    if later.isEmpty || breaksLine later then some later else none
  | rest => some rest

/-- The tokens of a text of at most so many characters. -/
def tokensUpTo? : Nat → Text → Option (List Token)
  | limit, text => do
    match ← skipGap? text, limit with
    | [], _ => return []
    | _ :: _, 0 => none
    | start, limit + 1 =>
      let (token, rest) ← readToken? start
      return token :: (← tokensUpTo? limit rest)

/-- The tokens of a configuration file; a byte order mark in front is skipped. -/
def tokens? (text : Text) : Option (List Token) :=
  match text with
  | '\uFEFF' :: rest => tokensUpTo? rest.length rest
  | _ => tokensUpTo? text.length text

/-! ## Settings -/

/-- What the next token of a list may be. -/
inductive ListState where
  /-- An item or the end. -/
  | item
  /-- A comma or the end. -/
  | separator

/-- Reads the rest of a list of texts, and the tokens after it. -/
def readList? : ListState → List Token → Option (List Text × List Token)
  | _, [] => none
  | state, .lineBreak :: rest => readList? state rest
  | _, .closeList :: rest => some ([], rest)
  | .item, .quoted text :: rest | .item, .lines text :: rest =>
    (readList? .separator rest).map fun parts => (text :: parts.1, parts.2)
  | .separator, .comma :: rest => readList? .item rest
  | _, _ => none

/-- Reads a value, and the tokens after it. -/
def readValue? : List Token → Option (SettingValue × List Token)
  | .quoted text :: rest | .lines text :: rest => some (.text text, rest)
  | .openList :: rest => (readList? .item rest).map fun parts => (.texts parts.1, parts.2)
  | .word word :: rest =>
    if word = "true".toList then some (.flag true, rest)
    else if word = "false".toList then some (.flag false, rest)
    else none
  | _ => none

/-- Reads the settings of at most so many lines. -/
def settingsUpTo? : Nat → List Token → Option (List (Text × SettingValue))
  | _, [] => some []
  | 0, _ => none
  | limit + 1, .lineBreak :: rest => settingsUpTo? limit rest
  | limit + 1, .word name :: .equals :: rest | limit + 1, .quoted name :: .equals :: rest => do
    let (value, later) ← readValue? rest
    match later with
    | [] => return [(name, value)]
    | .lineBreak :: later => return (name, value) :: (← settingsUpTo? limit later)
    | _ => none
  | _, _ => none

/-- The settings of a configuration file. -/
def settings? (text : Text) : Option (List (Text × SettingValue)) := do
  let tokens ← tokens? text
  settingsUpTo? tokens.length tokens

/-- Why a configuration file gives no options. -/
inductive LoadError where
  /-- There is no such file, or it is no text. -/
  | read (file : String)
  /-- It is not well formed, or sets something that is no option. -/
  | parse (file : String)
  deriving DecidableEq

/-- The wording of a load error. -/
def LoadError.message : LoadError → String
  | read file => "failed to read config " ++ file
  | parse file => "failed to parse config " ++ file

/-- The options of a configuration file, given its text if it can be read. -/
def load (file : String) (text : Option Text) : Except LoadError Options :=
  match text with
  | none => .error (.read file)
  | some text =>
    match (settings? text).bind Options.ofSettings? with
    | some options => .ok options
    | none => .error (.parse file)

end ClassAudit.ConfigFile
