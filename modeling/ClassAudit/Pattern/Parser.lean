import ClassAudit.Pattern.Bracket
import ClassAudit.Pattern.Regex
/-!
# Reading patterns

A library of regular expressions: reads a pattern into an expression, which is then searched. Groups
that are still open are held on a stack. A part of the usual syntax is known; a pattern with a class
of Unicode properties, a back-reference, a look-around or any other form that is not known is
refused.
-/

namespace ClassAudit.Pattern

/-- The most symbols that a part of a pattern may have with its repetitions written out. -/
def maxWeight : Nat := 300000

/-- A part of a branch. -/
inductive Item where
  /-- An expression and the number of its symbols. -/
  | expr (regex : Regex Char) (weight : Nat)
  /-- A change of flags, which cannot be repeated. -/
  | flags

namespace Item

/-- The expression of a part. -/
def regex? : Item → Option (Regex Char)
  | expr regex _ => some regex
  | flags => none

/-- The number of symbols of a part. -/
def weight : Item → Nat
  | expr _ weight => weight
  | flags => 0

end Item

/-- A group that is still open. -/
structure Group where
  flags : Flags := {}
  /-- The branches before the one being read, in reverse. -/
  branches : List (Regex Char) := []
  /-- The number of symbols in those branches. -/
  branchWeight : Nat := 0
  /-- The branch being read, in reverse. -/
  items : List Item := []

namespace Group

/-- The group with one more part. -/
def add (group : Group) (regex : Regex Char) (weight : Nat) : Group :=
  { group with items := .expr regex weight :: group.items }

/-- The branch being read. -/
def branch (group : Group) : Regex Char :=
  .concat (group.items.reverse.filterMap Item.regex?)

/-- The number of symbols of a group. -/
def weight (group : Group) : Nat :=
  group.items.foldl (fun total item => total + item.weight) group.branchWeight

/-- The group at the start of a new branch. -/
def nextBranch (group : Group) : Group :=
  { group with
    branches := group.branch :: group.branches
    branchWeight := group.weight
    items := [] }

/-- The expression of a group that is complete. -/
def close (group : Group) : Regex Char :=
  match group.branches with
  | [] => group.branch
  | branches => .choice (group.branch :: branches).reverse

/-- The group with its last part repeated, written out so many times. -/
def repeatLast? (group : Group) (repetition : Regex Char → Regex Char) (copies : Nat) :
    Option Group :=
  match group.items with
  | .expr regex weight :: items =>
    if weight * copies ≤ maxWeight then
      some { group with items := .expr (repetition regex) (weight * copies) :: items }
    else none
  | _ => none

/-- The group with a change of flags. -/
def setFlags (group : Group) (flags : Flags) : Group :=
  { group with flags := flags, items := .flags :: group.items }

end Group

/-- How far a pattern is read. -/
structure Reader where
  group : Group := {}
  /-- The groups around it, the innermost first. -/
  outer : List Group := []
  /-- The names of groups so far. -/
  names : List Text := []

/-! ## Repetition -/

/-- Reads a number with blanks around it. -/
def readCount? (text : Text) : Option (Nat × Text) :=
  let start := Text.trimStart text
  match start.takeWhile Char.isDigit with
  | [] => none
  | digits =>
    if Text.decimal digits < Nat.pow 2 32 then
      some (Text.decimal digits, Text.trimStart (start.dropWhile Char.isDigit))
    else none

/-- The bounds of a repetition. -/
structure Bounds where
  least : Nat
  /-- The upper bound, if there is one. -/
  most : Option Nat

namespace Bounds

/-- An expression repeated within bounds. -/
def apply (bounds : Bounds) (body : Regex Char) : Regex Char :=
  match bounds.most with
  | some most => .seq (body.times bounds.least) (body.upTo (most - bounds.least))
  | none => .seq (body.times bounds.least) (.star body)

/-- How often the expression is written out. -/
def copies (bounds : Bounds) : Nat :=
  max 1 (bounds.most.getD (bounds.least + 1))

end Bounds

/-- Reads the bounds of a repetition after the opening brace. -/
def readBounds? (text : Text) : Option (Bounds × Text) := do
  let (least, rest) ← readCount? text
  match rest with
  | '}' :: later => return (⟨least, some least⟩, later)
  | ',' :: '}' :: later => return (⟨least, none⟩, later)
  | ',' :: rest =>
    match ← readCount? rest with
    | (most, '}' :: later) => if least ≤ most then return (⟨least, some most⟩, later) else none
    | _ => none
  | _ => none

/-- The text after the mark of a reluctant repetition. -/
def dropReluctant : Text → Text
  | '?' :: rest => rest
  | text => text

/-! ## Groups -/

/-- Whether a character may stand in the name of a group. -/
def isGroupNameChar (c : Char) : Bool :=
  c == '_' || c == '.' || c == '[' || c == ']' || c.isAlphanum ||
    (!Text.isAscii c && Text.isWordChar c)

/-- Whether the name of a group is well formed. -/
def isGroupName (name : Text) : Bool :=
  name.all isGroupNameChar &&
    name.head?.any fun c => c == '_' || c.isAlpha || (!Text.isAscii c && Text.isWordChar c)

/-- The flags with one of them set or cleared. -/
def Flags.set? (flags : Flags) (value : Bool) : Char → Option Flags
  | 'i' => some { flags with ignoreCase := value }
  | 'm' => some { flags with multiLine := value }
  | 's' => some { flags with dotMatchesAll := value }
  | 'R' => some { flags with crlf := value }
  | 'x' => some { flags with verbose := value }
  | 'U' => some flags
  | 'u' => some flags
  | _ => none

/-- Reads flags up to the end of the mark: each at most once, and those after a hyphen are cleared.
Gives the flags, the character that ends the mark and the text after it. -/
def readFlags? (flags : Flags) (value : Bool) (seen : Text) : Text → Option (Flags × Char × Text)
  | [] => none
  | c :: rest =>
    if c = ':' ∨ c = ')' then
      if seen.head? = some '-' then none else some (flags, c, rest)
    else if seen.contains c then none
    else if c = '-' then readFlags? flags false (c :: seen) rest
    else do readFlags? (← flags.set? value c) value (c :: seen) rest

/-- The reader inside a new group. -/
def Reader.openGroup (reader : Reader) (flags : Flags) : Reader :=
  { reader with group := { flags := flags }, outer := reader.group :: reader.outer }

/-- Reads the start of a group after its parenthesis. -/
def readGroup? (reader : Reader) (text : Text) : Option (Reader × Text) :=
  match text with
  | '?' :: '=' :: _ | '?' :: '!' :: _ | '?' :: '<' :: '=' :: _ | '?' :: '<' :: '!' :: _ => none
  | '?' :: 'P' :: '<' :: rest | '?' :: '<' :: rest => do
    let (name, later) ← Text.cut? '>' rest
    if isGroupName name && !reader.names.contains name then
      return ({ reader.openGroup reader.group.flags with names := name :: reader.names }, later)
    else none
  | '?' :: ')' :: _ => none
  | '?' :: rest => do
    let (flags, stop, later) ← readFlags? reader.group.flags true [] rest
    if stop = ')' then return ({ reader with group := reader.group.setFlags flags }, later)
    else return (reader.openGroup flags, later)
  | _ => some (reader.openGroup reader.group.flags, text)

/-- The reader after the end of a group. -/
def Reader.closeGroup? (reader : Reader) : Option Reader :=
  match reader.outer with
  | [] => none
  | parent :: outer =>
    some { reader with
      group := parent.add reader.group.close (max 1 reader.group.weight)
      outer := outer }

/-! ## Patterns -/

/-- The expression of an escape. -/
def Escape.regex (flags : Flags) : Escape → Regex Char
  | .char c => .item (CharSet.folded flags (· == c))
  | .set members => .item members
  | .boundary test => .between test

/-- The reader with one more part in its group. -/
def Reader.add (reader : Reader) (regex : Regex Char) : Reader :=
  { reader with group := reader.group.add regex 1 }

/-- Reads one part of a pattern that starts with a character. -/
def readPart? (reader : Reader) (c : Char) (rest : Text) : Option (Reader × Text) :=
  let flags := reader.group.flags
  let again := fun (repetition : Regex Char → Regex Char) (copies : Nat) (later : Text) => do
    let group ← reader.group.repeatLast? repetition copies
    return ({ reader with group := group }, dropReluctant later)
  match c with
  | '(' => readGroup? reader (skipGap flags rest)
  | ')' => reader.closeGroup?.map (·, rest)
  | '|' => some ({ reader with group := reader.group.nextBranch }, rest)
  | '[' => (readSet? flags rest).map fun parts => (reader.add (.item parts.1), parts.2)
  | '*' => again .star 1 rest
  | '+' => again .plus 1 rest
  | '?' => again .optional 1 rest
  | '{' => do
    let (bounds, later) ← readBounds? (skipGap flags rest)
    again bounds.apply bounds.copies later
  | '.' => some (reader.add (.item (CharSet.dot flags)), rest)
  | '^' => some (reader.add (.between (Boundary.start flags)), rest)
  | '$' => some (reader.add (.between (Boundary.stop flags)), rest)
  | '\\' => (readEscape? rest).map fun parts => (reader.add (parts.1.regex flags), parts.2)
  | _ => some (reader.add ((Escape.char c).regex flags), rest)

/-- Reads the rest of a pattern in at most so many steps. -/
def readUpTo? : Nat → Reader → Text → Option (Regex Char)
  | limit, reader, text =>
    match skipGap reader.group.flags text, limit with
    | [], _ => if reader.outer.isEmpty then some reader.group.close else none
    | _ :: _, 0 => none
    | c :: rest, limit + 1 => do
      let (next, later) ← readPart? reader c rest
      readUpTo? limit next later

/-- The regular expression of a pattern. -/
def parse? (source : Text) : Option (Regex Char) :=
  readUpTo? source.length {} source

/-- The test for the texts that a pattern matches somewhere. -/
def finder? (source : Text) : Option (Text → Bool) :=
  (parse? source).map Regex.occursIn

end ClassAudit.Pattern
