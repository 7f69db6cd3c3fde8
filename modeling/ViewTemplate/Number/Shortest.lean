import ViewTemplate.Number.Decimal

/-!
# The shortest decimal of a number

Of all decimals that read back as a given number, the ones with the fewest digits are written, and of
those the nearest.  For each count of digits only two decimals need to be tried: the number's neighbours
on the grid of decimals with that many digits.  When both read back and are equally near, the format
decides (`Tie`).
-/

namespace ViewTemplate

/-- Which of two equally near decimals is written. -/
inductive Tie where
  /-- The larger one. -/
  | up
  /-- The one whose last digit is even. -/
  | even
  deriving Repr, DecidableEq

namespace Number

/-- The exponent `k` with `10 ^ k ≤ num / den < 10 ^ (k + 1)`, for positive `num` and `den`. -/
def leadingExponent (num den : Nat) : Int :=
  let k : Int := (digitCount num : Int) - digitCount den
  let reached := if 0 ≤ k then den * Nat.pow 10 k.toNat ≤ num
    else den ≤ num * Nat.pow 10 (-k).toNat
  if reached then k else k - 1

/-- The neighbours of `num / den` among the multiples of `10 ^ exponent`, nearer one first. -/
def gridNeighbours (tie : Tie) (num den : Nat) (exponent : Int) : List Decimal :=
  let (n, d) := if 0 ≤ exponent then (num, den * Nat.pow 10 exponent.toNat)
    else (num * Nat.pow 10 (-exponent).toNat, den)
  let q := n / d
  let r := n % d
  let below : Decimal := ⟨q, exponent⟩
  let above : Decimal := ⟨q + 1, exponent⟩
  let aboveFirst := d < 2 * r || (2 * r = d && (tie = .up || q % 2 = 1))
  if aboveFirst then [above, below] else [below, above]

/-- The decimal with exactly the value of the rank: a whole number of units is a whole number of
`10 ^ -1074`. -/
def exactDecimal (rank : Nat) : Decimal :=
  ⟨unitsOfRank rank * Nat.pow 5 1074, -1074⟩

/-- The largest count of digits that a binary64 number needs. -/
def maxDigits : Nat := 17

/-- The shortest decimal that reads back as the rank. -/
def shortestDecimal (tie : Tie) (rank : Nat) : Decimal :=
  let num := unitsOfRank rank
  let den := unitsPerOne
  let k := leadingExponent num den
  let tries := (List.range maxDigits).flatMap fun (n : Nat) => gridNeighbours tie num den (k - n)
  (tries.find? fun d => rankOfDecimal d = rank).getD (exactDecimal rank)

/-- Whatever is found among the tries reads back. -/
theorem rankOfDecimal_of_find?_eq_some {rank : Nat} {tries : List Decimal} {d : Decimal}
    (h : tries.find? (fun d => rankOfDecimal d = rank) = some d) : rankOfDecimal d = rank := by
  simpa using List.find?_some h

end Number

end ViewTemplate
