import ViewTemplate.Expression.Token

/-!
# Errors of expressions

Why a text is no expression.  A cause knows the place where reading stopped; the message also shows the
whole text.
-/

namespace ViewTemplate.Expression

/-- What the grammar wanted and did not find. -/
inductive Issue where
  | missing (c : Char)
  | expectedIdentifier
  | expectedBindingIdentifier
  | unconsumed (text : String)
  | unexpected (text : String)
  | unexpectedEnd
  | badObjectKey
  | notAssignable
  deriving DecidableEq, Inhabited

/-- The wording of an issue. -/
def Issue.message : Issue → String
  | .missing c => "Missing expected " ++ String.singleton c
  | .expectedIdentifier => "Expected identifier"
  | .expectedBindingIdentifier => "Expected binding identifier"
  | .unconsumed text => "Unconsumed token " ++ text
  | .unexpected text => "Unexpected token " ++ text
  | .unexpectedEnd => "Unexpected end of expression"
  | .badObjectKey => "Invalid object literal key"
  | .notAssignable => "Left hand side of expression is not assignable"

/-- Why a text could not be read. -/
inductive Cause where
  /-- A fault of the tokens, at a byte of the text. -/
  | lexical (fault : LexicalFault) (column : Nat)
  /-- An issue at the byte where a token starts, or at the end of the text. -/
  | grammar (issue : Issue) (column : Option Nat)
  /-- An iteration without the word `of`. -/
  | missingOf
  /-- An interpolation, opened at a byte of the text, that is never closed. -/
  | openInterpolation (column : Nat)
  /-- The bound on the number of steps was too small; the bound that is used never is. -/
  | outOfSteps
  deriving DecidableEq, Inhabited

/-- The text itself, at the end of a message. -/
def inInput (input : String) : String :=
  " in [" ++ input ++ "]"

/-- The message for a cause in `input`. -/
def Cause.message (cause : Cause) (input : String) : String :=
  match cause with
  | .lexical fault column => fault.message column input
  | .grammar issue column =>
    issue.message ++ " at column " ++ toString (column.getD input.utf8ByteSize) ++ inInput input
  | .missingOf => "Missing expected token 'of' in iterator expression [" ++ input ++ "]"
  | .openInterpolation column =>
    "Unterminated interpolation starting at column " ++ toString column ++ inInput input
  | .outOfSteps => "Expression too long" ++ inInput input

end ViewTemplate.Expression

namespace ViewTemplate

/-- A text that is no expression, and why. -/
structure ExpressionError where
  input : String
  cause : Expression.Cause
  deriving DecidableEq, Inhabited

/-- The message of an expression error. -/
def ExpressionError.message (e : ExpressionError) : String :=
  e.cause.message e.input

end ViewTemplate
