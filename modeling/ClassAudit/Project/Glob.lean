import ClassAudit.Pattern.Regex
import ClassAudit.Text.Basic
/-!
# Globs

A glob matches a relative path byte by byte. A star stays within a path component; a double star
that is a whole component spans any number of them.
-/

namespace ClassAudit.Glob

/-- A part of a glob. -/
inductive Part where
  | literal (c : Char)
  /-- One byte of a component. -/
  | anyByte
  /-- Any bytes of a component. -/
  | anyBytes
  /-- Any directories at the start of a path. -/
  | leadingDirs
  /-- Anything below a directory. -/
  | allBelow
  /-- A slash, or any directories between two slashes. -/
  | innerDirs
  /-- One byte of a set of characters; a set of others may match a slash. -/
  | set (negated : Bool) (ranges : List (Char × Char))
  /-- Any of several globs. -/
  | choice (branches : List (List Part))

/-! ## Reading -/

/-- How far a glob is read: branches, each in reverse, with the branch being read first, and below
them the branches of the braces around. -/
structure Reader where
  /-- The branch being read, in reverse. -/
  current : List Part := []
  /-- The finished branches of the innermost braces, in reverse. -/
  branches : List (List Part) := []
  /-- For each pair of braces around, the branch it stands in and the branches before that. -/
  outer : List (List Part × List (List Part)) := []
  /-- The last character read. -/
  previous : Option Char := none

namespace Reader

/-- The reader with one more part in its branch. -/
def add (reader : Reader) (part : Part) : Reader :=
  { reader with current := part :: reader.current }

/-- Whether the reader is inside braces. -/
def inBraces (reader : Reader) : Bool := !reader.outer.isEmpty

/-- The reader after a character. -/
def after (reader : Reader) (c : Char) : Reader :=
  { reader with previous := some c }

/-- The reader after an opening brace. -/
def openBraces (reader : Reader) : Reader :=
  { reader with
    current := []
    branches := []
    outer := (reader.current, reader.branches) :: reader.outer }

/-- The reader after a closing brace. -/
def closeBraces? (reader : Reader) : Option Reader :=
  match reader.outer with
  | [] => none
  | (current, branches) :: outer =>
    let closed := (reader.current :: reader.branches).reverse.map List.reverse
    some { reader with current := .choice closed :: current, branches := branches, outer := outer }

/-- The reader after a comma. -/
def comma (reader : Reader) : Reader :=
  if reader.inBraces then
    { reader with current := [], branches := reader.current :: reader.branches }
  else reader.add (.literal ',')

/-- The reader after two stars that are no component of their own. -/
def twoStars (reader : Reader) : Reader :=
  (reader.add .anyBytes).add .anyBytes

/-- The reader after a double star that is a component of its own but not the first one. The slash
before it belongs to it. -/
def spanDirs (reader : Reader) (part : Part) : Reader :=
  match reader.current with
  | .leadingDirs :: _ => reader
  | .allBelow :: _ => reader
  | _ :: rest => { reader with current := part :: rest }
  | [] => reader

/-- Whether a double star may be a component of its own after the character before it. -/
def startsComponent (reader : Reader) : Bool :=
  match reader.previous with
  | some '/' => true
  | some ',' | some '{' => reader.inBraces
  | _ => false

/-- Reads what follows a double star. -/
def doubleStar (reader : Reader) (text : Text) : Reader × Text :=
  let stars := reader.after '*'
  if reader.current.isEmpty then
    match text with
    | [] => (stars.add .leadingDirs, [])
    | '/' :: rest => ((reader.after '/').add .leadingDirs, rest)
    | _ => (stars.twoStars, text)
  else if reader.startsComponent then
    match text with
    | [] => (stars.spanDirs .allBelow, [])
    | '/' :: rest => ((reader.after '/').spanDirs .innerDirs, rest)
    | c :: _ =>
      if (c = ',' ∨ c = '}') ∧ reader.inBraces then (stars.spanDirs .allBelow, text)
      else (stars.twoStars, text)
  else (stars.twoStars, text)

end Reader

/-- How much of a set of characters is read. -/
structure SetReader where
  negated : Bool
  /-- The ranges read, in reverse. -/
  ranges : List (Char × Char) := []
  /-- Whether a hyphen waits for the end of a range. -/
  inRange : Bool := false

namespace SetReader

/-- The set after a character; none if it ends a range before the range starts. -/
def add? (set : SetReader) (c : Char) : Option SetReader :=
  match set.inRange, set.ranges with
  | true, (first, _) :: ranges =>
    if first.toNat ≤ c.toNat then
      some { set with ranges := (first, c) :: ranges, inRange := false }
    else none
  | _, ranges => some { set with ranges := (c, c) :: ranges, inRange := false }

/-- The part that a complete set makes. -/
def part (set : SetReader) : Part :=
  .set set.negated (if set.inRange then ('-', '-') :: set.ranges else set.ranges).reverse

end SetReader

/-- Reads the rest of a set of characters. A bracket or hyphen at the head of a set stands for
itself. -/
def readSet? (set : SetReader) : Text → Option (Part × Text)
  | [] => none
  | c :: rest =>
    if c = ']' ∧ !set.ranges.isEmpty then some (set.part, rest)
    else if c = '-' ∧ !set.ranges.isEmpty ∧ !set.inRange then
      readSet? { set with inRange := true } rest
    else do readSet? (← set.add? c) rest

/-- Reads a set of characters after its bracket. -/
def openSet? : Text → Option (Part × Text)
  | '!' :: rest | '^' :: rest => readSet? { negated := true } rest
  | text => readSet? { negated := false } text

/-- Reads one part of a glob that starts with a character. -/
def readPart? (reader : Reader) (c : Char) (rest : Text) : Option (Reader × Text) :=
  match c, rest with
  | '?', _ => some ((reader.add .anyByte).after c, rest)
  | '*', '*' :: rest => some (reader.doubleStar rest)
  | '*', _ => some ((reader.add .anyBytes).after c, rest)
  | '[', _ => (openSet? rest).map fun parts => ((reader.add parts.1).after ']', parts.2)
  | '{', _ => some (reader.openBraces.after c, rest)
  | '}', _ => reader.closeBraces?.map fun closed => (closed.after c, rest)
  | ',', _ => some (reader.comma.after c, rest)
  | '\\', d :: rest => some ((reader.add (.literal d)).after d, rest)
  | '\\', [] => none
  | _, _ => some ((reader.add (.literal c)).after c, rest)

/-- Reads the rest of a glob in at most so many steps. -/
def readUpTo? : Nat → Reader → Text → Option (List Part)
  | _, reader, [] => if reader.inBraces then none else some reader.current.reverse
  | 0, _, _ :: _ => none
  | limit + 1, reader, c :: rest => do
    let (next, later) ← readPart? reader c rest
    readUpTo? limit next later

/-- The parts of a glob. -/
def parts? (glob : Text) : Option (List Part) :=
  readUpTo? glob.length {} glob

/-! ## Matching -/

/-- The bytes of a text. -/
def bytes (text : Text) : List UInt8 :=
  text.flatMap String.utf8EncodeChar

/-- A byte between two bytes. -/
def byteRange (first last : UInt8) : UInt8 → Bool :=
  fun byte => first.toNat ≤ byte.toNat && byte.toNat ≤ last.toNat

/-- Whether a byte is in a range of characters. The ends of a range are compared byte by byte: only
the last byte of the first character and the first byte of the last one bound a range of bytes. -/
def inRange (range : Char × Char) (byte : UInt8) : Bool :=
  let first := String.utf8EncodeChar range.1
  let last := String.utf8EncodeChar range.2
  if range.1 = range.2 then first.contains byte
  else
    first.dropLast.contains byte || (last.drop 1).contains byte ||
      match first.getLast?, last.head? with
      | some low, some high => byteRange low high byte
      | _, _ => false

/-- A slash. -/
def slash : Regex UInt8 := .symbol 47

/-- Any bytes. -/
def anything : Regex UInt8 := .star (.item fun _ => true)

open Regex

mutual

/-- The expression of a part; a choice of nothing but empty branches is left out. -/
def partRegex : Part → Option (Regex UInt8)
  | .literal c => some (concat ((String.utf8EncodeChar c).map symbol))
  | .anyByte => some (item fun byte => byte != 47)
  | .anyBytes => some (star (item fun byte => byte != 47))
  | .leadingDirs => some (alt (optional slash) (seq anything slash))
  | .allBelow => some (seq slash anything)
  | .innerDirs => some (alt slash (concat [slash, anything, slash]))
  | .set negated ranges => some (item fun byte => (ranges.any (inRange · byte)) != negated)
  | .choice branches =>
    match branchRegexes branches with
    | [] => none
    | regexes => some (choice regexes)

/-- The expressions of the branches that are not empty. -/
def branchRegexes : List (List Part) → List (Regex UInt8)
  | [] => []
  | branch :: rest =>
    match partRegexes branch with
    | [] => branchRegexes rest
    | regexes => .concat regexes :: branchRegexes rest

/-- The expressions of the parts that are not left out. -/
def partRegexes : List Part → List (Regex UInt8)
  | [] => []
  | part :: rest =>
    match partRegex part with
    | none => partRegexes rest
    | some regex => regex :: partRegexes rest

end

/-- The expression of a glob. A double star alone matches everything. -/
def regexOf : List Part → Regex UInt8
  | [.leadingDirs] => anything
  | parts => .concat (partRegexes parts)

end ClassAudit.Glob

namespace ClassAudit

/-- Globs of which any may match. -/
structure Globs where
  regexes : List (Regex UInt8)

namespace Globs

/-- The globs of a list that can be read. -/
def ofTexts (globs : List Text) : Globs :=
  ⟨globs.filterMap fun glob => (Glob.parts? glob).map Glob.regexOf⟩

/-- Whether there are no globs. -/
def isEmpty (set : Globs) : Bool := set.regexes.isEmpty

/-- Whether some glob matches a relative path, given by its names. -/
def isMatch (set : Globs) (names : List Text) : Bool :=
  let path := Glob.bytes ((names.intersperse ['/']).flatten)
  set.regexes.any fun regex => regex.matchesAll path

end Globs

end ClassAudit
