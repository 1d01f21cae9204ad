import ClassAudit.Text.Basic
/-!
# Faults of a style sheet

The causes for which a style sheet is refused or one of its selectors is skipped, and their
wording. Offsets are in bytes of UTF-8.
-/

namespace ClassAudit.Css

/-- Why a selector has no reading. -/
inductive SelectorFault where
  | unclosedAttribute
  | strayBracket
  | strayParenthesis
  | danglingEscape
  | badName
  | unclosedParenthesis
  deriving DecidableEq

/-- A fault of a style sheet. -/
inductive Fault where
  | unterminatedComment (start : Nat)
  | unterminatedString (start : Nat)
  | unbalancedBrace (offset : Nat)
  | invalidSelector (selector : Text) (cause : SelectorFault)
  deriving DecidableEq

/-- The wording of a selector's fault. -/
def SelectorFault.message : SelectorFault → String
  | unclosedAttribute => "unclosed attribute selector"
  | strayBracket => "unexpected ']'"
  | strayParenthesis => "unexpected ')'"
  | danglingEscape => "dangling escape"
  | badName => "class selector without a valid name"
  | unclosedParenthesis => "unclosed parenthesis"

/-- The wording of a fault. -/
def Fault.message : Fault → String
  | unterminatedComment start => "unterminated comment starting at byte " ++ toString start
  | unterminatedString start => "unterminated string starting at byte " ++ toString start
  | unbalancedBrace offset => "unbalanced brace at byte " ++ toString offset
  | invalidSelector selector cause =>
    "invalid selector '" ++ String.ofList selector ++ "': " ++ cause.message

end ClassAudit.Css
