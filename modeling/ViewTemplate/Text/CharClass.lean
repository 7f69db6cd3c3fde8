import ViewTemplate.Text.Alphabetic
import ViewTemplate.Text.Numeric

/-!
# Character classes of the two scanners

The classes by which the expression scanner and the markup scanner cut their input.  Both use the same
narrow notion of space, which is not the Unicode property: of the characters beyond ASCII only the
no-break space counts.
-/

namespace ViewTemplate.Text

/-- A space between tokens: blank, tab, line feed, carriage return, vertical tab, form feed or the
no-break space. -/
def isSpace (c : Char) : Bool :=
  c = ' ' || c = '\t' || c = '\n' || c = '\r' || c = '\x0b' || c = '\x0c' || c = '\u00a0'

/-- One of the three quotation marks: apostrophe, double quote, grave accent. -/
def isQuote (c : Char) : Bool :=
  c = '\x27' || c = '\x22' || c = '\x60'

/-- A character that may start an identifier: an ASCII letter, `_`, `$`, or a letter beyond ASCII. -/
def isIdentifierStart (c : Char) : Bool :=
  isAsciiLetter c || c = '_' || c = '$' || (!isAscii c && isAlphabetic c)

/-- A character that may continue an identifier: one that may start it, a digit, or a numeral beyond
ASCII. -/
def isIdentifierPart (c : Char) : Bool :=
  isIdentifierStart c || isDigit c || (!isAscii c && (isAlphabetic c || isNumeric c))

/-- A character that ends a tag name or an attribute name. -/
def isNameEnd (c : Char) : Bool :=
  isSpace c || c = '>' || c = '<' || c = '/' || c = '\x27' || c = '\x22' || c = '=' || c = '\x00'

end ViewTemplate.Text
