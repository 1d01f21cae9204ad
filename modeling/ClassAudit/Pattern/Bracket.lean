import ClassAudit.Pattern.Symbol
/-!
# Bracketed sets

Reads a set of characters in square brackets: characters, ranges, escapes, named ASCII sets and
nested sets, joined by intersection, difference and symmetric difference from left to right.
-/

namespace ClassAudit.Pattern

/-- The text without the blanks and comments at its head. -/
def skipComments : (inComment : Bool) → Text → Text
  | _, [] => []
  | true, c :: rest => skipComments (c != '\n') rest
  | false, c :: rest =>
    if Text.isBlank c then skipComments false rest
    else if c = '#' then skipComments true rest
    else c :: rest

/-- The text where the next part of a pattern starts. -/
def skipGap (flags : Flags) (text : Text) : Text :=
  if flags.verbose then skipComments false text else text

/-- How two sets are joined. -/
inductive SetOperator where
  | intersection
  | difference
  | symmetricDifference

/-- The members of two sets that are joined. -/
def SetOperator.join (operator : SetOperator) (first second : CharSet) : CharSet :=
  match operator with
  | intersection => fun c => first c && second c
  | difference => fun c => first c && !second c
  | symmetricDifference => fun c => first c != second c

/-- How much of a bracketed set is read. -/
inductive SetProgress where
  /-- Nothing; a closing bracket stands for itself. -/
  | fresh
  /-- Hyphens only; a further one stands for itself. -/
  | hyphens
  | inside

/-- A bracketed set that is still open. -/
structure OpenSet where
  negated : Bool
  progress : SetProgress := .fresh
  /-- The sets before the last operator, and that operator. -/
  left : Option (CharSet × SetOperator) := none
  /-- The members since then. -/
  members : CharSet := fun _ => false

namespace OpenSet

/-- The set with more members. -/
def add (set : OpenSet) (more : CharSet) : OpenSet :=
  { set with progress := .inside, members := fun c => set.members c || more c }

/-- The set with a hyphen at its head. -/
def addHyphen (set : OpenSet) : OpenSet :=
  { set.add (· == '-') with progress := .hyphens }

/-- The members on both sides of the last operator. -/
def joined (set : OpenSet) : CharSet :=
  match set.left with
  | some (first, operator) => operator.join first set.members
  | none => set.members

/-- The set after an operator. -/
def operate (set : OpenSet) (operator : SetOperator) : OpenSet :=
  { negated := set.negated, progress := .inside, left := some (set.joined, operator) }

/-- The members of a set that is complete. -/
def close (set : OpenSet) : CharSet :=
  if set.negated then CharSet.complement set.joined else set.joined

end OpenSet

/-- The set that starts after a bracket. -/
def openSet (flags : Flags) (text : Text) : OpenSet × Text :=
  match skipGap flags text with
  | '^' :: rest => ({ negated := true }, rest)
  | rest => ({ negated := false }, rest)

/-- Reads a named ASCII set after its opening bracket. -/
def readNamedSet? (text : Text) : Option (CharSet × Text) := do
  let rest ← text.after? [':']
  let (name, later) ← rest.breakOn? [':', ']']
  match name with
  | '^' :: name => return (CharSet.complement (← CharSet.ascii? (String.ofList name)), later)
  | _ => return (← CharSet.ascii? (String.ofList name), later)

/-- Reads one character or escape of a set. -/
def readSetItem? : Text → Option (Escape × Text)
  | [] => none
  | '\\' :: rest => readEscape? rest
  | c :: rest => some (.char c, rest)

/-- Whether a hyphen at the head of a text makes a range with what stands before it. -/
def startsRange (flags : Flags) (text : Text) : Bool :=
  match text with
  | '-' :: rest =>
    match skipGap flags rest with
    | ']' :: _ => false
    | '-' :: _ => false
    | _ => true
  | _ => false

/-- Reads an item or a range of a set. -/
def readSetRange? (flags : Flags) (text : Text) : Option (CharSet × Text) := do
  let (first, rest) ← readSetItem? text
  let rest := skipGap flags rest
  if startsRange flags rest then
    let (last, rest) ← readSetItem? (skipGap flags (rest.drop 1))
    match first, last with
    | .char first, .char last =>
      if first.toNat ≤ last.toNat then
        return (CharSet.folded flags (CharSet.range first last), rest)
      else none
    | _, _ => none
  else
    match first with
    | .char c => return (CharSet.folded flags (· == c), rest)
    | .set members => return (members, rest)
    | .boundary _ => none

/-- Reads the rest of nested sets in at most so many steps; the innermost set comes first. -/
def readSetUpTo? (flags : Flags) : Nat → OpenSet → List OpenSet → Text → Option (CharSet × Text)
  | 0, _, _, _ => none
  | limit + 1, set, outer, text =>
    match set.progress, skipGap flags text with
    | .fresh, '-' :: rest | .hyphens, '-' :: rest =>
      readSetUpTo? flags limit set.addHyphen outer rest
    | .fresh, ']' :: rest => readSetUpTo? flags limit (set.add (· == ']')) outer rest
    | _, ']' :: rest =>
      match outer with
      | [] => some (set.close, rest)
      | parent :: outer => readSetUpTo? flags limit (parent.add set.close) outer rest
    | _, '[' :: rest =>
      match readNamedSet? rest with
      | some (members, later) =>
        readSetUpTo? flags limit (set.add (CharSet.folded flags members)) outer later
      | none =>
        let (inner, later) := openSet flags rest
        readSetUpTo? flags limit inner (set :: outer) later
    | _, '&' :: '&' :: rest => readSetUpTo? flags limit (set.operate .intersection) outer rest
    | _, '-' :: '-' :: rest => readSetUpTo? flags limit (set.operate .difference) outer rest
    | _, '~' :: '~' :: rest =>
      readSetUpTo? flags limit (set.operate .symmetricDifference) outer rest
    | _, start => do
      let (members, later) ← readSetRange? flags start
      readSetUpTo? flags limit (set.add members) outer later

/-- Reads a bracketed set after its bracket. -/
def readSet? (flags : Flags) (text : Text) : Option (CharSet × Text) :=
  let (set, rest) := openSet flags text
  readSetUpTo? flags (text.length + 1) set [] rest

end ClassAudit.Pattern
