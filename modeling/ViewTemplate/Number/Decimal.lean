import ViewTemplate.Number.Basic
import ViewTemplate.Text.CodePoints

/-!
# Decimal numerals

A decimal is a whole number of powers of ten, `digits * 10 ^ exponent`.  A numeral in a text is a run of
digits with at most one point in it, and optionally an exponent.  `Number.ofDecimal` takes the nearest
number.
-/

namespace ViewTemplate

open ViewTemplate.Text

/-- The decimal `digits * 10 ^ exponent`. -/
structure Decimal where
  digits : Nat
  exponent : Int
  deriving Repr, DecidableEq

/-- The value of a digit. -/
def digitValue (c : Char) : Nat :=
  c.toNat - '0'.toNat

/-- The whole number that a run of decimal digits denotes. -/
def digitsValue (cs : List Char) : Nat :=
  cs.foldl (fun n c => 10 * n + digitValue c) 0

/-- The number of decimal digits of `n`; zero has one. -/
def digitCount (n : Nat) : Nat :=
  (Nat.toDigits 10 n).length

namespace Decimal

/-- Reads a non-empty run of digits. -/
def readDigits? (cs : List Char) : Option Nat :=
  if cs.isEmpty || !cs.all isDigit then none else some (digitsValue cs)

/-- Reads the exponent after the mark `e`: an optional sign and digits. -/
def readExponent? : List Char → Option Int
  | '-' :: cs => (readDigits? cs).map fun n => -(n : Int)
  | '+' :: cs => (readDigits? cs).map fun n => (n : Int)
  | cs => (readDigits? cs).map fun n => (n : Int)

/-- Reads an unsigned numeral: digits, optionally a point with more digits, optionally an exponent.  At
least one digit stands before or after the point. -/
def read? (cs : List Char) : Option Decimal :=
  let whole := cs.takeWhile isDigit
  let rest := cs.dropWhile isDigit
  let (fraction, rest) := match rest with
    | '.' :: rest => (rest.takeWhile isDigit, rest.dropWhile isDigit)
    | rest => ([], rest)
  if whole.isEmpty && fraction.isEmpty then none
  else
    let digits := digitsValue (whole ++ fraction)
    match rest with
    | [] => some ⟨digits, -(fraction.length : Int)⟩
    | c :: rest =>
      if c = 'e' || c = 'E' then
        (readExponent? rest).map fun e => ⟨digits, e - fraction.length⟩
      else none

end Decimal

namespace Number

/-- The rank nearest to a decimal.  A decimal of `10 ^ 310` and above is past every finite magnitude,
and one below `10 ^ -330` is nearest to zero. -/
def rankOfDecimal (d : Decimal) : Nat :=
  let size : Int := digitCount d.digits + d.exponent
  if d.digits = 0 || size < -330 then 0
  else if 310 < size then infiniteRank
  else if 0 ≤ d.exponent then rankOfUnits (d.digits * Nat.pow 10 d.exponent.toNat * unitsPerOne) 1
  else rankOfUnits (d.digits * unitsPerOne) (Nat.pow 10 (-d.exponent).toNat)

/-- The number nearest to a decimal. -/
def ofDecimal (d : Decimal) : Number :=
  ofRank false (rankOfDecimal d)

/-- Reads an unsigned numeral. -/
def read? (cs : List Char) : Option Number :=
  (Decimal.read? cs).map ofDecimal

/-- The number with the opposite sign. -/
def neg (x : Number) : Number :=
  { x with negative := !x.negative }

/-- Reads an unsigned numeral, or the word `inf` for infinity. -/
def readMagnitude? (cs : List Char) : Option Number :=
  if cs = ['i', 'n', 'f'] then some infinity else read? cs

/-- Reads what `Number.text` writes: a magnitude with a minus sign before a negative number. -/
def ofText? (text : String) : Option Number :=
  match text.toList with
  | '-' :: cs => (readMagnitude? cs).map neg
  | cs => readMagnitude? cs

end Number

end ViewTemplate
