import ViewTemplate.Number.Decimal
import ViewTemplate.Text.Hexadecimal

/-!
# Character references

In text and in attribute values, `&name;` and `&#number;` stand for a character.  What is not a known
reference is left as it is.

* `readReference?` — the character that is referred to after an ampersand.
* `decode` — a text with its references replaced.
-/

namespace ViewTemplate.Markup

open ViewTemplate.Text

/-- The references by name. -/
def namedReferences : List (String × Char) :=
  [("amp", '&'), ("lt", '<'), ("gt", '>'), ("quot", '\x22'), ("apos", '\x27'), ("nbsp", '\u00a0'),
    ("copy", '\u00a9'), ("reg", '\u00ae'), ("hellip", '\u2026'), ("mdash", '\u2014'),
    ("ndash", '\u2013')]

/-- A character that may stand between the ampersand and the semicolon. -/
def isReferenceChar (c : Char) : Bool :=
  isAsciiLetter c || isDigit c || c = '#'

/-- The most characters that are read between the ampersand and the semicolon. -/
def maxReferenceLength : Nat := 32

/-- The character with the given code, if it is one. -/
def scalar? (code : Nat) : Option Char :=
  if code.isValidChar then some (Char.ofNat code) else none

/-- The character that a number after `#` stands for: decimal digits, or hexadecimal ones after an
`x`. -/
def numericReference? (cs : List Char) : Option Char :=
  match cs with
  | 'x' :: hex | 'X' :: hex => (hexValue? hex).bind scalar?
  | digits => (Decimal.readDigits? digits).bind scalar?

/-- The character that the text between ampersand and semicolon stands for. -/
def referenced? (body : List Char) : Option Char :=
  match body with
  | '#' :: number => numericReference? number
  | name => (namedReferences.find? fun (n, _) => n.toList = name).map (·.2)

/-- The character that is referred to after an ampersand, and the number of characters that the
reference takes, semicolon included. -/
def readReference? (cs : List Char) : Option (Char × Nat) :=
  let body := cs.takeWhile isReferenceChar
  if body.length ≤ maxReferenceLength && (cs.drop body.length).head? = some ';' then
    (referenced? body).map fun c => (c, body.length + 1)
  else none

/-- The characters with references replaced; the first `skip` of them belong to a reference that has
been replaced already. -/
def decodeFrom : (skip : Nat) → List Char → List Char
  | _, [] => []
  | skip + 1, _ :: cs => decodeFrom skip cs
  | 0, c :: cs =>
    if c = '&' then
      match readReference? cs with
      | some (d, length) => d :: decodeFrom length cs
      | none => c :: decodeFrom 0 cs
    else c :: decodeFrom 0 cs

/-- The characters with references replaced. -/
def decode (cs : List Char) : List Char :=
  decodeFrom 0 cs

end ViewTemplate.Markup
