import ClassAudit.Text.Basic
/-!
# JSON values

A JSON value with its numbers as they are written, its object entries in source order, and strings
that need not be text: an escape may name half of a surrogate pair.
-/

namespace ClassAudit

/-- A JSON value. -/
inductive Json where
  | null
  | bool (value : Bool)
  /-- A number as it is written. -/
  | number (literal : Text)
  /-- A string; it has no text if an escape in it is an unpaired surrogate. -/
  | string (text : Option Text)
  | array (items : List Json)
  /-- The entries in source order, repeated keys included. -/
  | object (entries : List (Option Text × Json))

namespace Json

/-- The text of a string. -/
def text? : Json → Option Text
  | string text => text
  | _ => none

/-- The value of a truth value. -/
def bool? : Json → Option Bool
  | bool value => some value
  | _ => none

/-- The items of an array. -/
def items? : Json → Option (List Json)
  | array items => some items
  | _ => none

/-- The entries of an object. -/
def entries? : Json → Option (List (Option Text × Json))
  | object entries => some entries
  | _ => none

/-- The value of the last entry with a key. -/
def field? (key : Text) (value : Json) : Option Json := do
  let entries ← value.entries?
  entries.reverse.lookup (some key)

/-- The value of a number written with digits only. -/
def nat? : Json → Option Nat
  | number literal => if literal.all Char.isDigit then some (Text.decimal literal) else none
  | _ => none

/-- The value of a number written with digits and at most a minus sign. -/
def int? : Json → Option Int
  | number ('-' :: digits) =>
    if digits.all Char.isDigit then some (-(Text.decimal digits : Int)) else none
  | value => value.nat?.map Int.ofNat

/-- The texts of an array of strings. -/
def texts? (value : Json) : Option (List Text) := do
  (← value.items?).mapM text?

end Json

end ClassAudit
