import ViewTemplate.Number.Shortest

/-!
# Writing numbers

A number is written with the digits of its shortest decimal.  A format says for which sizes the digits
are laid out around a decimal point and what a whole number looks like; all other sizes are written with
an exponent.
-/

namespace ViewTemplate

/-- The decisions of a way to write numbers.  The size of a number is the exponent of its leading
digit. -/
structure NumberFormat where
  /-- Which of two equally near decimals is written. -/
  tie : Tie
  /-- The sizes that are written without an exponent. -/
  isPositional : Int → Bool
  /-- Written after a whole number, such as `.0`. -/
  wholeMark : String

namespace NumberFormat

/-- Texts of expressions: never an exponent, and whole numbers without a point. -/
def plain : NumberFormat :=
  ⟨.up, fun _ => true, ""⟩

/-- JSON documents: sizes from `-5` to `15` around a point, whole numbers with `.0`, the others with an
exponent. -/
def json : NumberFormat :=
  ⟨.even, fun k => -5 ≤ k && k ≤ 15, ".0"⟩

end NumberFormat

namespace Number

/-- The digits without the zeros at their end. -/
def significantDigits (n : Nat) : List Char :=
  ((Nat.toDigits 10 n).reverse.dropWhile (· = '0')).reverse

/-- Digits laid out around a decimal point, where the leading digit counts `10 ^ size`. -/
def positional (wholeMark : String) (digits : List Char) (size : Int) : String :=
  if size < 0 then
    "0." ++ String.ofList (List.replicate (-size - 1).toNat '0' ++ digits)
  else
    let whole := size.toNat + 1
    if digits.length ≤ whole then
      String.ofList (digits ++ List.replicate (whole - digits.length) '0') ++ wholeMark
    else String.ofList (digits.take whole) ++ "." ++ String.ofList (digits.drop whole)

/-- Digits with a point after the first, and a signed exponent. -/
def scientific (digits : List Char) (size : Int) : String :=
  let fraction := match digits.drop 1 with
    | [] => ""
    | cs => "." ++ String.ofList cs
  String.ofList (digits.take 1) ++ fraction ++ "e" ++ (if size < 0 then "-" else "+")
    ++ toString size.natAbs

/-- A finite magnitude in the given format. -/
def renderRank (format : NumberFormat) (rank : Nat) : String :=
  if rank = 0 then "0" ++ format.wholeMark
  else
    let d := shortestDecimal format.tie rank
    let digits := significantDigits d.digits
    let size : Int := digitCount d.digits - 1 + d.exponent
    if format.isPositional size then positional format.wholeMark digits size
    else scientific digits size

/-- The number in the given format. -/
def render (format : NumberFormat) (x : Number) : String :=
  (if x.negative then "-" else "")
    ++ (if x.isInfinite then "inf" else renderRank format x.rank)

/-- The number as expressions write it. -/
def text (x : Number) : String :=
  x.render .plain

end Number

end ViewTemplate
