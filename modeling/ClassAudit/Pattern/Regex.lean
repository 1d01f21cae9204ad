/-!
# Regular expressions

Expressions over any kind of symbol, and the places where a match that starts at a given place may
end. An assertion looks at the symbols on both sides of a place.
-/

namespace ClassAudit

/-- A regular expression. -/
inductive Regex (α : Type) where
  /-- Matches nothing. -/
  | never
  /-- Matches the empty text. -/
  | empty
  /-- Matches one symbol that passes a test. -/
  | item (test : α → Bool)
  /-- Matches the empty text between symbols that pass a test. -/
  | between (test : Option α → Option α → Bool)
  | seq (first second : Regex α)
  | alt (first second : Regex α)
  /-- Matches any number of times. -/
  | star (body : Regex α)

namespace Regex

variable {α : Type}

/-- A place in a text: the symbol before it and the symbols after it. -/
structure Place (α : Type) where
  previous : Option α
  rest : List α
  deriving DecidableEq

/-- The places reached from a list of places in at most so many steps, each of which goes on. -/
def reach [DecidableEq α] (step : Place α → List (Place α)) : Nat → List (Place α) → List (Place α)
  | 0, places => places
  | limit + 1, places =>
    let next := places.flatMap fun place =>
      (step place).filter fun later => later.rest.length < place.rest.length
    (places ++ reach step limit next.eraseDups).eraseDups

/-- The places where a match from a place may end. -/
def ends [DecidableEq α] : Regex α → Place α → List (Place α)
  | never, _ => []
  | empty, place => [place]
  | item test, place =>
    match place.rest with
    | symbol :: rest => if test symbol then [⟨some symbol, rest⟩] else []
    | [] => []
  | between test, place => if test place.previous place.rest.head? then [place] else []
  | seq first second, place => ((first.ends place).flatMap second.ends).eraseDups
  | alt first second, place => (first.ends place ++ second.ends place).eraseDups
  | star body, place => reach body.ends place.rest.length [place]

/-- The places of a text. -/
def placesFrom (previous : Option α) : List α → List (Place α)
  | [] => [⟨previous, []⟩]
  | symbol :: rest => ⟨previous, symbol :: rest⟩ :: placesFrom (some symbol) rest

/-- Whether the expression matches some part of a text. -/
def occursIn [DecidableEq α] (regex : Regex α) (text : List α) : Bool :=
  (placesFrom none text).any fun place => !(regex.ends place).isEmpty

/-- Whether the expression matches the whole text. -/
def matchesAll [DecidableEq α] (regex : Regex α) (text : List α) : Bool :=
  (regex.ends ⟨none, text⟩).any fun place => place.rest.isEmpty

/-- One symbol. -/
def symbol [DecidableEq α] (a : α) : Regex α :=
  item fun b => b == a

/-- Expressions one after the other. -/
def concat (parts : List (Regex α)) : Regex α :=
  parts.foldr seq empty

/-- Any of several expressions. -/
def choice (branches : List (Regex α)) : Regex α :=
  branches.foldr alt never

/-- The expression or nothing. -/
def optional (body : Regex α) : Regex α :=
  alt body empty

/-- At least one time. -/
def plus (body : Regex α) : Regex α :=
  seq body (star body)

/-- A fixed number of times. -/
def times (body : Regex α) : Nat → Regex α
  | 0 => empty
  | count + 1 => seq body (body.times count)

/-- At most so many times. -/
def upTo (body : Regex α) : Nat → Regex α
  | 0 => empty
  | count + 1 => optional (seq body (body.upTo count))

end Regex

end ClassAudit
