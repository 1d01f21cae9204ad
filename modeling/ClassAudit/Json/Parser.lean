import ClassAudit.Json.Token
/-!
# Reading JSON

Builds the value of a JSON text from its tokens. The arrays and objects that are still open are held
on a stack, so a text may nest to any depth.
-/

namespace ClassAudit.Json

/-- An array or object that is still open, with its content in reverse. -/
inductive Frame where
  | array (items : List Json)
  /-- An object and the key of the value being read. -/
  | object (entries : List (Option Text × Json)) (key : Option Text)

/-- What the next token may be. -/
inductive Expecting where
  | value
  /-- An item or the end of an empty array. -/
  | firstItem
  /-- A key or the end of an empty object. -/
  | firstKey
  | key
  | colon
  /-- A comma or the end of the innermost frame. -/
  | next
  /-- Nothing: the value is complete. -/
  | done (value : Json)

/-- How far a JSON text is read. -/
structure Reader where
  frames : List Frame := []
  expecting : Expecting := .value

namespace Reader

/-- The reader after a complete value. -/
def finish (frames : List Frame) (value : Json) : Reader :=
  match frames with
  | [] => ⟨[], .done value⟩
  | .array items :: outer => ⟨.array (value :: items) :: outer, .next⟩
  | .object entries key :: outer => ⟨.object ((key, value) :: entries) key :: outer, .next⟩

/-- The reader after the start of a value. -/
def startValue? (frames : List Frame) : Token → Option Reader
  | .openArray => some ⟨.array [] :: frames, .firstItem⟩
  | .openObject => some ⟨.object [] none :: frames, .firstKey⟩
  | .scalar value => some (finish frames value)
  | .string text => some (finish frames (.string text))
  | _ => none

/-- The reader after a token. -/
def step? (reader : Reader) (token : Token) : Option Reader :=
  match reader.expecting, token, reader.frames with
  | .done _, _, _ => none
  | .value, _, frames => startValue? frames token
  | .firstItem, .closeArray, .array items :: outer => some (finish outer (.array items.reverse))
  | .firstItem, _, frames => startValue? frames token
  | .firstKey, .closeObject, .object entries _ :: outer =>
    some (finish outer (.object entries.reverse))
  | .firstKey, .string key, .object entries _ :: outer =>
    some ⟨.object entries key :: outer, .colon⟩
  | .key, .string key, .object entries _ :: outer => some ⟨.object entries key :: outer, .colon⟩
  | .colon, .colon, frames => some ⟨frames, .value⟩
  | .next, .comma, .array items :: outer => some ⟨.array items :: outer, .value⟩
  | .next, .comma, .object entries key :: outer => some ⟨.object entries key :: outer, .key⟩
  | .next, .closeArray, .array items :: outer => some (finish outer (.array items.reverse))
  | .next, .closeObject, .object entries _ :: outer =>
    some (finish outer (.object entries.reverse))
  | _, _, _ => none

end Reader

/-- The value of a JSON text. -/
def parse? (text : Text) : Option Json := do
  let reader ← (← tokens? text).foldlM Reader.step? {}
  match reader.expecting with
  | .done value => some value
  | _ => none

end ClassAudit.Json
