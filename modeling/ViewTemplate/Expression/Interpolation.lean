import ViewTemplate.Expression.Parser
import ViewTemplate.Text.Name

/-!
# Interpolations

Text such as `a${b}c` has expressions between its parts.  Inside an expression braces nest and quoted
text is skipped; in a part, `\$` stands for a dollar sign that opens nothing.

* `closeSegment` — the text of an expression up to the brace that closes it.
* `splitInterpolation` — the parts of a text and the texts of the expressions between them.
-/

namespace ViewTemplate.Expression

open ViewTemplate.Text

/-- Text cut at its interpolations: one part more than there are expressions. -/
structure Segments where
  parts : List String
  expressions : List String
  deriving Repr, DecidableEq, Inhabited

/-- Puts a character in front of a segment that was found. -/
def consSegment (c : Char) (found : Option (List Char × List Char)) : Option (List Char × List Char) :=
  found.map fun (inside, rest) => (c :: inside, rest)

/-- The text of an expression up to the brace that closes it, and what follows that brace.  `quote` is
the quotation mark that is open and `depth` the number of braces that are. -/
def closeSegment (quote : Option Char) (depth : Nat) : List Char → Option (List Char × List Char)
  | [] => none
  | c :: cs =>
    match quote with
    | some q => consSegment c (closeSegment (if c = q then none else some q) depth cs)
    | none =>
      if isQuote c then consSegment c (closeSegment (some c) depth cs)
      else if c = '\x7b' then consSegment c (closeSegment none (depth + 1) cs)
      else if c = '\x7d' then
        match depth with
        | 0 => some ([], cs)
        | depth + 1 => consSegment c (closeSegment none depth cs)
      else consSegment c (closeSegment none depth cs)

/-- The segments with a character in front of the first part. -/
def Segments.push (c : Char) (s : Segments) : Segments :=
  match s.parts with
  | [] => ⟨[String.singleton c], s.expressions⟩
  | part :: parts => ⟨(String.singleton c ++ part) :: parts, s.expressions⟩

/-- Cuts the end `cs` of a text of `total` bytes.  Each step takes a character, so `fuel` above the
number of characters is enough. -/
def splitChars (total : Nat) : (fuel : Nat) → List Char → Except Cause Segments
  | 0, _ => .error .outOfSteps
  | _ + 1, [] => .ok ⟨[""], []⟩
  | fuel + 1, '\\' :: '$' :: cs => (splitChars total fuel cs).map (·.push '$')
  | fuel + 1, '$' :: '\x7b' :: cs =>
    match closeSegment none 0 cs with
    | none => .error (.openInterpolation (total - byteLength ('$' :: '\x7b' :: cs)))
    | some (inside, rest) =>
      (splitChars total fuel rest).map fun s =>
        ⟨"" :: s.parts, String.ofList inside :: s.expressions⟩
  | fuel + 1, c :: cs => (splitChars total fuel cs).map (·.push c)

/-- Cuts a text at its interpolations. -/
def splitInterpolation (input : String) : Except Cause Segments :=
  let cs := input.toList
  splitChars (byteLength cs) (cs.length + 1) cs

end ViewTemplate.Expression
