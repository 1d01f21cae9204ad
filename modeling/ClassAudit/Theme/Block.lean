import ClassAudit.Text.Blank
/-!
# Theme blocks

The bodies of the `@theme` rules that stand at the top level of a style sheet, and the custom
properties that a body declares. Whether a rule stands at the top level depends on comments, strings
and braces before it; its closing brace depends on comments and braces only.
-/

namespace ClassAudit.Theme

/-- What the next character belongs to. -/
inductive Mode where
  /-- Neither a comment nor a string; whether the last character was a slash. -/
  | code (slash : Bool)
  /-- A comment; whether the last character was an asterisk. -/
  | comment (star : Bool)
  /-- A string; whether a backslash protects the next character. -/
  | string (quote : Char) (escaped : Bool)
  deriving DecidableEq

/-- A place in a style sheet: the braces open and what the next character belongs to. -/
structure Place where
  depth : Nat := 0
  mode : Mode := .code false
  deriving DecidableEq

namespace Place

/-- The place after a character of code or a comment, where quotes have no meaning. -/
def stepPlain (place : Place) (slash : Bool) (c : Char) : Place :=
  if slash && c == '*' then { place with mode := .comment false }
  else if c = '{' then ⟨place.depth + 1, .code false⟩
  else if c = '}' then ⟨place.depth - 1, .code false⟩
  else { place with mode := .code (c == '/') }

/-- The place after a character. -/
def step (readsStrings : Bool) (place : Place) (c : Char) : Place :=
  match place.mode with
  | .comment star =>
    { place with mode := if star && c == '/' then .code false else .comment (c == '*') }
  | .string quote escaped =>
    { place with
      mode :=
        if escaped then .string quote false
        else if c = '\\' then .string quote true
        else if c = quote then .code false
        else .string quote false }
  | .code slash =>
    if readsStrings && (c == '"' || c == '\'') then { place with mode := .string c false }
    else place.stepPlain slash c

/-- The place after a text. -/
def run (readsStrings : Bool) (place : Place) (text : Text) : Place :=
  text.foldl (step readsStrings) place

/-- Whether the next character is code outside of all braces. -/
def isTop (place : Place) : Bool :=
  match place.mode with
  | .code _ => place.depth == 0
  | _ => false

end Place

/-- Splits a text at the brace that closes the block it starts in. Strings are not read. -/
def closeBlock? : Place → Text → Option (Text × Text)
  | _, [] => none
  | place, c :: rest =>
    if c = '}' ∧ place.isTop then some ([], rest)
    else (closeBlock? (place.step false c) rest).map fun parts => (c :: parts.1, parts.2)

theorem closeBlock?_eq_some {place : Place} {text body rest : Text}
    (h : closeBlock? place text = some (body, rest)) : text = body ++ '}' :: rest := by
  induction text generalizing place body with
  | nil => simp [closeBlock?] at h
  | cons c text ih =>
    simp only [closeBlock?] at h
    split at h
    · simp_all
    · obtain ⟨⟨body', rest'⟩, h', he⟩ := Option.map_eq_some_iff.1 h
      simp only [Prod.mk.injEq] at he
      obtain ⟨rfl, rfl⟩ := he
      simp [ih h']

/-- The word that starts a theme rule. -/
def themeWord : Text := "@theme".toList

/-- What stands at the head of a text. -/
inductive RuleStart where
  /-- No theme rule. -/
  | other
  /-- A theme rule that is not closed. -/
  | unclosed
  /-- A theme rule: what precedes its opening brace, its body, and the text after it. -/
  | rule (front body rest : Text)

/-- Reads the theme rule at the head of a text. A semicolon before the brace makes it none. -/
def ruleStart (text : Text) : RuleStart :=
  match text.after? themeWord with
  | none => .other
  | some afterWord =>
    match Text.cut? '{' afterWord with
    | none => .unclosed
    | some (header, content) =>
      if header.contains ';' then .other
      else
        match closeBlock? {} content with
        | none => .unclosed
        | some (body, rest) => .rule (themeWord ++ header) body rest

theorem ruleStart_eq_rule {text front body rest : Text}
    (h : ruleStart text = .rule front body rest) :
    text = front ++ '{' :: body ++ '}' :: rest := by
  simp only [ruleStart] at h
  split at h
  · exact absurd h (by simp)
  · rename_i afterWord hword
    split at h
    · exact absurd h (by simp)
    · rename_i header content hcut
      split at h
      · exact absurd h (by simp)
      · split at h
        · exact absurd h (by simp)
        · rename_i hclose
          simp only [RuleStart.rule.injEq] at h
          obtain ⟨rfl, rfl, rfl⟩ := h
          rw [Text.after?_eq_some_iff.1 hword, (Text.cut?_eq_some_iff.1 hcut).1,
            closeBlock?_eq_some hclose]
          simp

/-- The bodies of the top-level theme rules in the rest of a style sheet. The first theme rule that
is not closed ends the search. -/
def bodiesFrom (place : Place) (text : Text) : List Text :=
  match text with
  | [] => []
  | c :: later =>
    if place.isTop then
      match _h : ruleStart (c :: later) with
      | .rule front body rest =>
        body :: bodiesFrom (place.run true (front ++ '{' :: body ++ ['}'])) rest
      | .unclosed => []
      | .other => bodiesFrom (place.step true c) later
    else bodiesFrom (place.step true c) later
termination_by text.length
decreasing_by
  · have := congrArg List.length (ruleStart_eq_rule _h)
    simp only [List.length_append, List.length_cons] at this ⊢
    omega
  all_goals simp

/-- The bodies of the top-level theme rules, in order. -/
def bodies (css : Text) : List Text :=
  bodiesFrom {} css

/-- Whether a style sheet has a theme rule at its top level. -/
def hasBlock (css : Text) : Bool :=
  !(bodies css).isEmpty

/-- The parts of a body between the semicolons outside braces. -/
def splitDeclarations : Nat → Text → List Text
  | _, [] => [[]]
  | depth, c :: rest =>
    if c = ';' ∧ depth = 0 then [] :: splitDeclarations 0 rest
    else
      let next := if c = '{' then depth + 1 else if c = '}' then depth - 1 else depth
      match splitDeclarations next rest with
      | part :: parts => (c :: part) :: parts
      | [] => [[c]]

theorem length_breakOn? {text part front rest : Text}
    (h : text.breakOn? part = some (front, rest)) :
    text.length = front.length + part.length + rest.length := by
  induction text generalizing front with
  | nil =>
    simp only [Text.breakOn?, Option.map_eq_some_iff, Prod.mk.injEq] at h
    obtain ⟨_, h, rfl, rfl⟩ := h
    have := congrArg List.length (Text.after?_eq_some_iff.1 h)
    simpa using this
  | cons c text ih =>
    simp only [Text.breakOn?] at h
    split at h
    · rename_i h'
      have := congrArg List.length (Text.after?_eq_some_iff.1 h')
      simp_all
    · simp only [Option.map_eq_some_iff, Prod.mk.injEq] at h
      obtain ⟨⟨front', rest'⟩, h, rfl, rfl⟩ := h
      have := ih h
      simp only [List.length_cons] at this ⊢
      omega

/-- A declaration without the comments in front of it; nothing is left of an open comment. -/
def dropComments (text : Text) : Text :=
  match text with
  | '/' :: '*' :: content =>
    match _h : Text.breakOn? content ['*', '/'] with
    | some (_, rest) => dropComments (Text.trimStart rest)
    | none => []
  | _ => text
termination_by text.length
decreasing_by
  have := length_breakOn? _h
  have : (Text.trimStart rest).length ≤ rest.length := (List.dropWhile_sublist _).length_le
  simp only [List.length_cons]
  omega

/-- The name of a custom property that a part of a body declares with a value. -/
def declaredName? (part : Text) : Option Text :=
  match Text.cut? ':' (dropComments (Text.trim part)) with
  | some (name, value) =>
    if (Text.trim name).startsWith ['-', '-'] && !(Text.trim value).isEmpty then
      some (Text.trim name)
    else none
  | none => none

/-- The names of the custom properties that a body declares, in order. -/
def declaredNames (body : Text) : List Text :=
  (splitDeclarations 0 body).filterMap declaredName?

end ClassAudit.Theme
