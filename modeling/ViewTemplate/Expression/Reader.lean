import ViewTemplate.Expression.Interpolation

/-!
# Reading attribute values

An attribute value is read according to the kind of expression that is expected in it.  The rest of the
library takes the reader as an argument, so that another expression language can be put in its place;
`ExpressionReader.standard` is the one defined here.
-/

namespace ViewTemplate

/-- Reads a text as an expression of the given kind.  A reader may decline a text, with no result and no
error; text without interpolations is declined. -/
abbrev ExpressionReader := String → ExpressionKind → Except ExpressionError (Option Expression)

namespace Expression

/-- Reads a plain expression. -/
def read (input : String) : Except ExpressionError Expression :=
  (parse input).mapError (⟨input, ·⟩)

/-- Reads an iteration. -/
def readIteration (input : String) : Except ExpressionError Expression :=
  (parseIteration input).mapError (⟨input, ·⟩)

/-- Reads plain expressions in order, up to the first that is none. -/
def readAll : List String → Except ExpressionError (List Expression)
  | [] => .ok []
  | input :: inputs => do
    let e ← read input
    let es ← readAll inputs
    .ok (e :: es)

/-- Reads text with interpolations; text without any is declined. -/
def readInterpolation (input : String) : Except ExpressionError (Option Expression) :=
  if Text.hasInterpolation input then do
    let segments ← (splitInterpolation input).mapError (⟨input, ·⟩)
    if segments.expressions.isEmpty then .ok none
    else do
      let es ← readAll segments.expressions
      .ok (some (.interpolation segments.parts es))
  else .ok none

end Expression

/-- The reader of the expression language of this library. -/
def ExpressionReader.standard : ExpressionReader := fun input kind =>
  match kind with
  | .interpolation => Expression.readInterpolation input
  | .iteration => (Expression.readIteration input).map some
  | .plain | .property | .function => (Expression.read input).map some

end ViewTemplate
