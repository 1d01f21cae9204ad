import ClassAudit.Json.Basic
/-!
# Readable JSON values

A value that is kept, and not only skipped, has to have texts for its strings, numbers that a double
can hold, and a bounded depth.
-/

namespace ClassAudit.Json

/-- The least number that rounds to no finite double. -/
def overflowBound : Nat := Nat.pow 2 1024 - Nat.pow 2 970

/-- Whether a number of digits times a power of ten is below the overflow bound. Numbers far from
the bound are told by their length. -/
def isBounded (digits : Text) (exponent : Int) : Bool :=
  let significant := digits.dropWhile (· == '0')
  let magnitude := significant.length + exponent
  if significant.isEmpty || magnitude < 300 then true
  else if 400 < magnitude then false
  else if 0 ≤ exponent then Text.decimal significant * Nat.pow 10 exponent.toNat < overflowBound
  else Text.decimal significant < overflowBound * Nat.pow 10 (-exponent).toNat

/-- The value of an exponent with an optional sign. -/
def exponentValue : Text → Int
  | '-' :: digits => -(Text.decimal digits : Int)
  | '+' :: digits => Text.decimal digits
  | digits => Text.decimal digits

/-- Whether a number is one that a double can hold. -/
def isFinite (literal : Text) : Bool :=
  let isMark := fun c : Char => c == 'e' || c == 'E'
  let body := (literal.takeWhile fun c => !isMark c).dropWhile (· == '-')
  let exponent := exponentValue ((literal.dropWhile fun c => !isMark c).drop 1)
  match Text.cut? '.' body with
  | some (whole, fraction) => isBounded (whole ++ fraction) (exponent - fraction.length)
  | none => isBounded body exponent

mutual

/-- Whether a value can be kept, with arrays and objects nested at most so deep. -/
def isReadable : Nat → Json → Bool
  | _, .null => true
  | _, .bool _ => true
  | _, .number literal => isFinite literal
  | _, .string text => text.isSome
  | 0, .array _ => false
  | 0, .object _ => false
  | depth + 1, .array items => areReadable depth items
  | depth + 1, .object entries => areReadableEntries depth entries

/-- Whether all values can be kept. -/
def areReadable : Nat → List Json → Bool
  | _, [] => true
  | depth, item :: rest => isReadable depth item && areReadable depth rest

/-- Whether all entries can be kept. -/
def areReadableEntries : Nat → List (Option Text × Json) → Bool
  | _, [] => true
  | depth, (key, value) :: rest =>
    key.isSome && isReadable depth value && areReadableEntries depth rest

end

end ClassAudit.Json
