import ViewTemplate.Text.CodePoints

/-!
# Hexadecimal numerals
-/

namespace ViewTemplate.Text

/-- The value of a hexadecimal digit, of either case. -/
def hexDigit? (c : Char) : Option Nat :=
  if isDigit c then some (c.toNat - '0'.toNat)
  else if 'a' ≤ c && c ≤ 'f' then some (c.toNat - 'a'.toNat + 10)
  else if 'A' ≤ c && c ≤ 'F' then some (c.toNat - 'A'.toNat + 10)
  else none

/-- The value of the digits `cs` after digits that amount to `n`. -/
def hexValueFrom? (n : Nat) : List Char → Option Nat
  | [] => some n
  | c :: cs => (hexDigit? c).bind fun d => hexValueFrom? (16 * n + d) cs

/-- The value of a run of hexadecimal digits, at least one. -/
def hexValue? (cs : List Char) : Option Nat :=
  if cs.isEmpty then none else hexValueFrom? 0 cs

end ViewTemplate.Text
