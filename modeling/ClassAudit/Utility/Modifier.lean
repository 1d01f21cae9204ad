import ClassAudit.Text.Basic
/-!
# Modifiers and scopes

A token is a stack of modifiers, each ended by a colon, and a base; a modifier or a base may end
in a slash and a scope. Colons and slashes count only outside brackets and parentheses. Both kinds
of bracket share one counter, and a closing one without a partner is plain text.
-/

namespace ClassAudit

/-- The nesting after a character. -/
def nestingAfter (nesting : Nat) (c : Char) : Nat :=
  if c = '[' ∨ c = '(' then nesting + 1
  else if c = ']' ∨ c = ')' then nesting - 1
  else nesting

/-- A token taken apart at its top-level colons. -/
structure ModifiedToken where
  /-- The parts before each colon. -/
  modifiers : List Text
  /-- The part after the last colon. -/
  base : Text
  deriving DecidableEq

namespace ModifiedToken

/-- One more character in front of a token. -/
def push (c : Char) : ModifiedToken → ModifiedToken
  | ⟨[], base⟩ => ⟨[], c :: base⟩
  | ⟨modifier :: modifiers, base⟩ => ⟨(c :: modifier) :: modifiers, base⟩

/-- Splits what follows in a token at the given nesting. -/
def splitFrom : Nat → Text → ModifiedToken
  | _, [] => ⟨[], []⟩
  | nesting, c :: rest =>
    if c = ':' ∧ nesting = 0 then
      let token := splitFrom 0 rest
      ⟨[] :: token.modifiers, token.base⟩
    else (splitFrom (nestingAfter nesting c) rest).push c

/-- Splits a token at its top-level colons. -/
def split (token : Text) : ModifiedToken :=
  splitFrom 0 token

/-- Writes a token out again. -/
def render (token : ModifiedToken) : Text :=
  token.modifiers.flatMap (· ++ [':']) ++ token.base

theorem render_cons (modifier : Text) (modifiers : List Text) (base : Text) :
    render ⟨modifier :: modifiers, base⟩ = modifier ++ ':' :: render ⟨modifiers, base⟩ := by
  simp [render]

theorem render_push (c : Char) (token : ModifiedToken) :
    (token.push c).render = c :: token.render := by
  obtain ⟨modifiers, base⟩ := token
  cases modifiers <;> rfl

theorem render_splitFrom (nesting : Nat) (text : Text) :
    (splitFrom nesting text).render = text := by
  induction text generalizing nesting with
  | nil => rfl
  | cons c rest ih =>
    simp only [splitFrom]
    split
    · rename_i h
      have := ih 0
      simp only [render] at this ⊢
      simp [h.1, this]
    · rw [render_push, ih]

@[simp] theorem render_split (text : Text) : (split text).render = text :=
  render_splitFrom 0 text

end ModifiedToken

/-- The parts around the first slash that stands at nesting zero. -/
def cutScopeFrom? : Nat → Text → Option (Text × Text)
  | _, [] => none
  | nesting, c :: rest =>
    if c = '/' ∧ nesting = 0 then some ([], rest)
    else (cutScopeFrom? (nestingAfter nesting c) rest).map fun parts => (c :: parts.1, parts.2)

/-- The parts around the first top-level slash. -/
def cutScope? (text : Text) : Option (Text × Text) :=
  cutScopeFrom? 0 text

/-- The part before the first top-level slash, or the whole text. -/
def scopeHead (text : Text) : Text :=
  ((cutScope? text).map Prod.fst).getD text

/-- The part after the first top-level slash. -/
def scopeName? (text : Text) : Option Text :=
  (cutScope? text).map Prod.snd

end ClassAudit
