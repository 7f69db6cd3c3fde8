import ViewTemplate.Source.Location

/-!
# Diagnostics

What a scanner or parser reports about a source text: a message, the span it speaks of, and how grave
it is.  `Diagnostic.excerpt` shows the message with up to thirty bytes of the source on either side.
-/

namespace ViewTemplate.Source

open ViewTemplate.Text

/-- How grave a diagnostic is. -/
inductive Severity where
  | warning
  | error
  deriving Repr, DecidableEq, Inhabited

/-- The mark of a severity in an excerpt. -/
def Severity.mark : Severity → String
  | .warning => "WARNING"
  | .error => "ERROR"

/-- A message about a stretch of source text. -/
structure Diagnostic where
  span : Span
  message : String
  severity : Severity := .error
  deriving Repr, DecidableEq, Inhabited

namespace Diagnostic

/-- The message and the place where its span starts. -/
def display (d : Diagnostic) : String :=
  d.message ++ " at " ++ d.span.start.display

/-- The number of bytes of source that an excerpt shows on either side. -/
def excerptReach : Nat := 30

/-- The message with an excerpt of `source` around the place where the span starts.  Either side of
the excerpt is widened to whole characters; there is none when the place itself lies inside a
character. -/
def excerpt (d : Diagnostic) (source : String) : Option String :=
  let cs := source.toList
  let offset := min d.span.start.offset (byteLength cs)
  (splitAtByte offset cs).map fun (before, after) =>
    let left := (takeCovering excerptReach before.reverse).reverse
    let right := takeCovering excerptReach after
    d.message ++ " (\"" ++ String.ofList left ++ "[" ++ d.severity.mark ++ " ->]"
      ++ String.ofList right ++ "\")"

end Diagnostic

end ViewTemplate.Source
