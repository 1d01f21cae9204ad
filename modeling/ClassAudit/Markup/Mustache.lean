import ClassAudit.Text.Basic
/-!
# Texts with expressions in braces

An expression in braces ends at the brace that closes it; braces inside it nest, and braces inside
its quoted strings do not count. A brace that is never closed is text, with all that follows.
-/

namespace ClassAudit.Mustache

/-- A place inside an expression in braces. -/
structure Inside where
  /-- The braces open beside the outermost one. -/
  depth : Nat := 0
  /-- The quote that ends the string, inside one. -/
  quote : Option Char := none
  /-- Whether a backslash protects the next character of the string. -/
  escaped : Bool := false
  deriving DecidableEq

/-- Whether a character starts a string of an expression. -/
def isQuote (c : Char) : Bool :=
  c == '"' || c == '\'' || c == '\x60'

namespace Inside

/-- The place after a character, or none if it closes the outermost brace. -/
def step (place : Inside) (c : Char) : Option Inside :=
  match place.quote with
  | some quote =>
    if place.escaped then some { place with escaped := false }
    else if c = '\\' then some { place with escaped := true }
    else if c = quote then some { place with quote := none }
    else some place
  | none =>
    if isQuote c then some { place with quote := some c }
    else if c = '{' then some { place with depth := place.depth + 1 }
    else if c = '}' then
      if place.depth = 0 then none else some { place with depth := place.depth - 1 }
    else some place

end Inside

/-- A part of a text with expressions. -/
inductive Segment where
  | text (content : Text)
  /-- What stands between a pair of braces. -/
  | expression (content : Text)
  deriving DecidableEq

/-- The segment of a text that is read in reverse, unless it is empty. -/
def textSegment (reversed : Text) : List Segment :=
  if reversed.isEmpty then [] else [.text reversed.reverse]

mutual

/-- The segments of a text after the text `before`, which is held in reverse. -/
def segmentsFrom (before : Text) : Text → List Segment
  | [] => textSegment before
  | c :: rest =>
    if c = '{' then expressionFrom before [] {} rest else segmentsFrom (c :: before) rest

/-- The segments of a text inside an expression, with the text before the expression and the part
of the expression read so far held in reverse. -/
def expressionFrom (before content : Text) (place : Inside) : Text → List Segment
  | [] => textSegment (content ++ '{' :: before)
  | c :: rest =>
    match place.step c with
    | some next => expressionFrom before (c :: content) next rest
    | none => textSegment before ++ .expression content.reverse :: segmentsFrom [] rest

end

/-- The text and the expressions of a text, in order. -/
def segments (text : Text) : List Segment :=
  segmentsFrom [] text

/-- A segment as it is written. -/
def Segment.render : Segment → Text
  | .text content => content
  | .expression content => '{' :: content ++ ['}']

end ClassAudit.Mustache
