import ClassAudit.Text.Blank
/-!
# Class lists

A class list is split at blanks, except that a bracketed or parenthesised run stays in one token
and a backslash keeps the next character with it. A group that the list leaves open is split at
every blank.
-/

namespace ClassAudit.ClassList

/-- How far a class list is read. -/
structure Reader where
  /-- The token being read, in reverse. -/
  current : Text := []
  /-- The square brackets open. -/
  brackets : Nat := 0
  /-- The parentheses open. -/
  parens : Nat := 0

namespace Reader

/-- Whether a bracket or parenthesis is open. -/
def inGroup (reader : Reader) : Bool :=
  reader.brackets > 0 || reader.parens > 0

/-- The reader after a character that stays in the token. -/
def keep (reader : Reader) (c : Char) : Reader :=
  { reader with current := c :: reader.current }

/-- The reader with the groups that a character opens or closes. -/
def nest (reader : Reader) (c : Char) : Reader :=
  match c with
  | '[' => { reader with brackets := reader.brackets + 1 }
  | ']' => { reader with brackets := reader.brackets - 1 }
  | '(' => { reader with parens := reader.parens + 1 }
  | ')' => { reader with parens := reader.parens - 1 }
  | _ => reader

/-- The token read so far, unless it is empty. -/
def token (reader : Reader) : List Text :=
  if reader.current.isEmpty then [] else [reader.current.reverse]

/-- The last tokens of a list. -/
def finish (reader : Reader) : List Text :=
  if reader.inGroup then Text.words reader.current.reverse else reader.token

end Reader

/-- The tokens of the rest of a class list. -/
def tokensFrom : Reader → Text → List Text
  | reader, [] => reader.finish
  | reader, '\\' :: c :: rest => tokensFrom ((reader.keep '\\').keep c) rest
  | reader, c :: rest =>
    let next := reader.nest c
    if Text.isBlank c && !next.inGroup then next.token ++ tokensFrom {} rest
    else tokensFrom (next.keep c) rest

/-- The tokens of a class list. -/
def tokens (list : Text) : List Text :=
  tokensFrom {} list

end ClassAudit.ClassList
