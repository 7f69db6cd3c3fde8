/-!
# Sets of code points

A character property is a finite union of intervals of code points.  The tables of this library list
those intervals in increasing order; membership is decided by looking at each of them.
-/

namespace ViewTemplate.Text

/-- A set of code points, given by closed intervals `(first, last)` in increasing order. -/
abbrev CodePoints := List (Nat × Nat)

/-- Whether the code point of `c` lies in one of the intervals. -/
def CodePoints.holds (set : CodePoints) (c : Char) : Bool :=
  set.any fun (first, last) => first ≤ c.toNat && c.toNat ≤ last

/-! ### The ASCII classes -/

/-- Whether `c` is one of the first 128 code points. -/
def isAscii (c : Char) : Bool :=
  c.toNat < 0x80

/-- `A` to `Z`. -/
def isAsciiUpper (c : Char) : Bool :=
  'A' ≤ c && c ≤ 'Z'

/-- `a` to `z`. -/
def isAsciiLower (c : Char) : Bool :=
  'a' ≤ c && c ≤ 'z'

/-- A letter of the English alphabet, of either case. -/
def isAsciiLetter (c : Char) : Bool :=
  isAsciiUpper c || isAsciiLower c

/-- `0` to `9`. -/
def isDigit (c : Char) : Bool :=
  '0' ≤ c && c ≤ '9'

/-- A digit of a hexadecimal number, of either case. -/
def isHexDigit (c : Char) : Bool :=
  isDigit c || ('a' ≤ c && c ≤ 'f') || ('A' ≤ c && c ≤ 'F')

end ViewTemplate.Text
