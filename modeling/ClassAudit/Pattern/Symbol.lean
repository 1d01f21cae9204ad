import ClassAudit.Text.CaseFold
import ClassAudit.Text.WordChar
/-!
# Symbols of patterns

Sets of characters and assertions between characters, as the escapes and flags of a pattern select
them, and the escapes themselves.
-/

namespace ClassAudit.Pattern

/-- The flags in force at a place of a pattern. -/
structure Flags where
  ignoreCase : Bool := false
  multiLine : Bool := false
  dotMatchesAll : Bool := false
  crlf : Bool := false
  /-- Blanks and comments in the pattern say nothing. -/
  verbose : Bool := false

/-- A set of characters. -/
abbrev CharSet := Char → Bool

/-- A condition on the characters on both sides of a place. -/
abbrev Boundary := Option Char → Option Char → Bool

namespace CharSet

/-- The characters that differ from a member in letter case only, if case is ignored. -/
def folded (flags : Flags) (set : CharSet) : CharSet :=
  if flags.ignoreCase then fun c => (Text.caseVariants c).any set else set

/-- The characters from one to another. -/
def range (first last : Char) : CharSet :=
  fun c => first.toNat ≤ c.toNat && c.toNat ≤ last.toNat

/-- The characters that are not in a set. -/
def complement (set : CharSet) : CharSet := fun c => !set c

/-- The characters that a dot stands for. -/
def dot (flags : Flags) : CharSet :=
  fun c => flags.dotMatchesAll || (c != '\n' && !(flags.crlf && c == '\r'))

/-- The sets of ASCII characters that have a name. -/
def ascii? (name : String) : Option CharSet :=
  let within := fun (ranges : List (Nat × Nat)) (c : Char) => Text.inRanges ranges c.toNat
  match name with
  | "alnum" => some (within [(48, 57), (65, 90), (97, 122)])
  | "alpha" => some (within [(65, 90), (97, 122)])
  | "ascii" => some (within [(0, 127)])
  | "blank" => some (within [(9, 9), (32, 32)])
  | "cntrl" => some (within [(0, 31), (127, 127)])
  | "digit" => some (within [(48, 57)])
  | "graph" => some (within [(33, 126)])
  | "lower" => some (within [(97, 122)])
  | "print" => some (within [(32, 126)])
  | "punct" => some (within [(33, 47), (58, 64), (91, 96), (123, 126)])
  | "space" => some (within [(9, 13), (32, 32)])
  | "upper" => some (within [(65, 90)])
  | "word" => some (within [(48, 57), (65, 90), (95, 95), (97, 122)])
  | "xdigit" => some (within [(48, 57), (65, 70), (97, 102)])
  | _ => none

end CharSet

namespace Boundary

/-- Whether the character on a side belongs to a word. -/
def isWord (side : Option Char) : Bool := side.any Text.isWordChar

/-- The start of the text, or of a line. -/
def start (flags : Flags) : Boundary := fun before after =>
  match before with
  | none => true
  | some c => flags.multiLine && (c == '\n' || (flags.crlf && c == '\r' && after != some '\n'))

/-- The end of the text, or of a line. -/
def stop (flags : Flags) : Boundary := fun before after =>
  match after with
  | none => true
  | some c =>
    flags.multiLine &&
      if flags.crlf then c == '\r' || (c == '\n' && before != some '\r') else c == '\n'

/-- The start or the end of a word. -/
def word : Boundary := fun before after => isWord before != isWord after

/-- The assertions on words that have a name. -/
def named? (name : String) : Option Boundary :=
  match name with
  | "start" => some fun before after => !isWord before && isWord after
  | "end" => some fun before after => isWord before && !isWord after
  | "start-half" => some fun before _ => !isWord before
  | "end-half" => some fun _ after => !isWord after
  | _ => none

end Boundary

/-- What an escape stands for. -/
inductive Escape where
  | char (c : Char)
  | set (members : CharSet)
  | boundary (test : Boundary)

/-- Whether a backslash may stand before a punctuation character. -/
def isEscapable (c : Char) : Bool :=
  Text.isAscii c && !c.isAlphanum && c != '<' && c != '>'

/-- Reads the digits of a character's code: a fixed number of them, or any number in braces. -/
def readCode? (count : Nat) (text : Text) : Option (Char × Text) :=
  match text with
  | '{' :: rest => do
    let (digits, later) ← Text.cut? '}' rest
    if digits.isEmpty || !digits.all Text.isHexDigit then none
    else return (← Text.charOfCode? (Text.valueIn 16 digits), later)
  | _ =>
    let digits := text.take count
    if digits.length = count ∧ digits.all Text.isHexDigit then
      (Text.charOfCode? (Text.valueIn 16 digits)).map (·, text.drop count)
    else none

/-- Reads what follows `\b`: the name of a word boundary in braces, or nothing. -/
def readWordBoundary? (text : Text) : Option (Escape × Text) :=
  match text with
  | '{' :: c :: rest =>
    if c.isAlpha || c == '-' then do
      let (name, later) ← Text.cut? '}' (c :: rest)
      return (.boundary (← Boundary.named? (String.ofList name)), later)
    else some (.boundary Boundary.word, text)
  | _ => some (.boundary Boundary.word, text)

/-- Reads what follows a backslash. -/
def readEscape? : Text → Option (Escape × Text)
  | [] => none
  | c :: rest =>
    match c with
    | 'd' => some (.set Text.isDecimal, rest)
    | 'D' => some (.set (CharSet.complement Text.isDecimal), rest)
    | 's' => some (.set Text.isBlank, rest)
    | 'S' => some (.set (CharSet.complement Text.isBlank), rest)
    | 'w' => some (.set Text.isWordChar, rest)
    | 'W' => some (.set (CharSet.complement Text.isWordChar), rest)
    | 'a' => some (.char '\x07', rest)
    | 'f' => some (.char '\x0c', rest)
    | 't' => some (.char '\t', rest)
    | 'n' => some (.char '\n', rest)
    | 'r' => some (.char '\r', rest)
    | 'v' => some (.char '\x0b', rest)
    | 'x' => (readCode? 2 rest).map fun parts => (.char parts.1, parts.2)
    | 'u' => (readCode? 4 rest).map fun parts => (.char parts.1, parts.2)
    | 'U' => (readCode? 8 rest).map fun parts => (.char parts.1, parts.2)
    | 'A' => some (.boundary fun before _ => before.isNone, rest)
    | 'z' => some (.boundary fun _ after => after.isNone, rest)
    | 'b' => readWordBoundary? rest
    | 'B' => some (.boundary fun before after => !Boundary.word before after, rest)
    | '<' => (Boundary.named? "start").map fun test => (.boundary test, rest)
    | '>' => (Boundary.named? "end").map fun test => (.boundary test, rest)
    | _ => if isEscapable c then some (.char c, rest) else none

end ClassAudit.Pattern
