/-!
# Numbers

The numbers of the expression language are the binary64 numbers without the undefined one: a sign and
one of finitely many magnitudes.  Magnitudes are named by their rank in increasing order, so that rank
`0` is zero and the last rank is infinity.

Every finite magnitude is a whole number of *units* of `2 ^ -1074`; `unitsOfRank` gives that number.
`rankOfUnits` rounds a fraction of units to the nearest rank, a half to the even one.
-/

namespace ViewTemplate

/-- The number of magnitudes between two successive powers of two. -/
def binadeSize : Nat := Nat.pow 2 52

/-- The rank of infinity. -/
def infiniteRank : Nat := 2047 * binadeSize

/-- A binary64 number: its sign and the rank of its magnitude. -/
structure Number where
  negative : Bool
  rank : Nat
  rank_le : rank ≤ infiniteRank
  deriving DecidableEq

namespace Number

/-- The number of the given sign whose rank is `rank`, or infinity past the last rank. -/
def ofRank (negative : Bool) (rank : Nat) : Number :=
  ⟨negative, min rank infiniteRank, Nat.min_le_right _ _⟩

/-- Zero, with a positive sign. -/
def zero : Number :=
  ofRank false 0

/-- Positive infinity. -/
def infinity : Number :=
  ofRank false infiniteRank

instance : Inhabited Number := ⟨zero⟩

/-- Whether the magnitude is infinite. -/
def isInfinite (x : Number) : Bool :=
  x.rank = infiniteRank

/-! ### Magnitudes in units of `2 ^ -1074` -/

/-- The number of units in one. -/
def unitsPerOne : Nat := Nat.pow 2 1074

/-- The magnitude of a rank below infinity, in units. -/
def unitsOfRank (rank : Nat) : Nat :=
  if rank < binadeSize then rank
  else (binadeSize + rank % binadeSize) * Nat.pow 2 (rank / binadeSize - 1)

/-- The whole number nearest to `num / den`, a half going to the even neighbour. -/
def divHalfEven (num den : Nat) : Nat :=
  let q := num / den
  let r := num % den
  if 2 * r < den then q
  else if den < 2 * r then q + 1
  else q + q % 2

/-- The rank nearest to `num / den` units.  With more than 53 binary digits the last ones are dropped,
and each digit dropped moves the rank by one binade. -/
def rankOfUnits (num den : Nat) : Nat :=
  let drop := Nat.log2 (num / den) - 52
  drop * binadeSize + divHalfEven num (den * Nat.pow 2 drop)

/-- Whole magnitudes are their own rounding. -/
theorem divHalfEven_mul_right (n d : Nat) (h : 0 < d) : divHalfEven (n * d) d = n := by
  simp [divHalfEven, Nat.mul_div_cancel _ h, h]

end Number

end ViewTemplate
