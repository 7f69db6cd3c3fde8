import Mathlib.Algebra.Order.Ring.Nat
import Mathlib.Tactic.Ring
import ViewTemplate.Number.Format

/-!
# Numbers read back

The text of a finite number without a sign is a numeral that reads as the same number.  Three facts make it
up: rounding a fraction of units depends on its value alone (`rankOfUnits_mul_left`), a magnitude is its own
rounding (`rankOfUnits_unitsOfRank`), and the layout of digits around a point keeps their value
(`numeral_positional`).

* `Number.rankOfDecimal_shift` — decimals of one value have one rank.
* `Number.rankOfDecimal_shortestDecimal` — the decimal that is written reads back.
* `Number.read?_text` — so does its text.
-/

namespace ViewTemplate

open ViewTemplate.Text

namespace Number

/-! ### Rounding -/

/-- A common factor on the left changes nothing in a rounded quotient. -/
theorem divHalfEven_mul_left {j : Nat} (hj : 0 < j) (num den : Nat) :
    divHalfEven (j * num) (j * den) = divHalfEven num den := by
  have hlt : 2 * (j * num % (j * den)) < j * den ↔ 2 * (num % den) < den := by
    rw [Nat.mul_mod_mul_left, Nat.mul_left_comm]
    exact Nat.mul_lt_mul_left hj
  have hgt : j * den < 2 * (j * num % (j * den)) ↔ den < 2 * (num % den) := by
    rw [Nat.mul_mod_mul_left, Nat.mul_left_comm]
    exact Nat.mul_lt_mul_left hj
  simp only [divHalfEven, hlt, hgt, Nat.mul_div_mul_left _ _ hj]

/-- Rounding depends on the value of a fraction alone. -/
theorem rankOfUnits_mul_left {j : Nat} (hj : 0 < j) (num den : Nat) :
    rankOfUnits (j * num) (j * den) = rankOfUnits num den := by
  simp only [rankOfUnits, Nat.mul_div_mul_left _ _ hj, Nat.mul_assoc, divHalfEven_mul_left hj]

/-- A common factor changes nothing in the rank of a fraction. -/
theorem rankOfUnits_mul_right {j : Nat} (hj : 0 < j) (num den : Nat) :
    rankOfUnits (num * j) (den * j) = rankOfUnits num den := by
  rw [Nat.mul_comm num, Nat.mul_comm den, rankOfUnits_mul_left hj]

/-- The logarithm of a scaled significand with fifty-three bits. -/
theorem log2_mul_two_pow {m q : Nat} (hlow : 2 ^ 52 ≤ m) (hhigh : m < 2 ^ 53) :
    Nat.log2 (m * 2 ^ q) = 52 + q := by
  have hpow : 0 < 2 ^ q := Nat.two_pow_pos q
  have hm : m * 2 ^ q ≠ 0 := Nat.mul_ne_zero (by omega) (by omega)
  rw [Nat.log2_eq_iff hm, show 52 + q + 1 = 53 + q by omega, Nat.pow_add, Nat.pow_add]
  exact ⟨Nat.mul_le_mul_right _ hlow, Nat.mul_lt_mul_of_pos_right hhigh hpow⟩

/-- A magnitude is its own rounding. -/
theorem rankOfUnits_unitsOfRank (rank : Nat) {den : Nat} (hden : 0 < den) :
    rankOfUnits (unitsOfRank rank * den) den = rank := by
  have hsize : binadeSize = 2 ^ 52 := rfl
  unfold rankOfUnits
  rw [Nat.mul_div_cancel _ hden]
  by_cases hsmall : rank < binadeSize
  · have hunits : unitsOfRank rank = rank := if_pos hsmall
    have hdrop : Nat.log2 rank - 52 = 0 := by
      by_cases hzero : rank = 0
      · rw [hzero, Nat.log2_zero]
      · have := (Nat.log2_lt hzero).2 (hsize ▸ hsmall)
        omega
    simp only [hunits, hdrop]
    rw [Nat.pow_eq, Nat.pow_zero, Nat.mul_one, divHalfEven_mul_right _ _ hden]
    omega
  · -- Above the first binade the magnitude is a significand of 53 digits and a power of two.
    have hunits : unitsOfRank rank =
        (binadeSize + rank % binadeSize) * 2 ^ (rank / binadeSize - 1) := if_neg hsmall
    have hpos : 0 < binadeSize := by rw [hsize]; exact Nat.two_pow_pos 52
    have hmod : rank % binadeSize < binadeSize := Nat.mod_lt _ hpos
    have hquot : 1 ≤ rank / binadeSize := (Nat.one_le_div_iff hpos).2 (Nat.le_of_not_lt hsmall)
    have hlog : Nat.log2 (unitsOfRank rank) = 52 + (rank / binadeSize - 1) := by
      rw [hunits]
      exact log2_mul_two_pow (by omega) (by omega)
    have hscale : unitsOfRank rank * den =
        (binadeSize + rank % binadeSize) * (den * 2 ^ (rank / binadeSize - 1)) := by
      rw [hunits]
      ring
    have hdrop : 52 + (rank / binadeSize - 1) - 52 = rank / binadeSize - 1 := by omega
    simp only [hlog, hdrop, hscale]
    rw [Nat.pow_eq, divHalfEven_mul_right _ _ (Nat.mul_pos hden (Nat.two_pow_pos _))]
    have hdecomp := Nat.div_add_mod rank binadeSize
    have hstep : (rank / binadeSize - 1) * binadeSize + binadeSize = binadeSize * (rank / binadeSize) := by
      obtain ⟨q, hq⟩ : ∃ q, rank / binadeSize = q + 1 := ⟨rank / binadeSize - 1, by omega⟩
      rw [hq]
      simp only [Nat.add_sub_cancel]
      ring
    omega

/-! ### Digits -/

/-- The value of digits, as the standard library reads them. -/
theorem digitsValue_eq (cs : List Char) : digitsValue cs = Nat.ofDigitChars 10 cs 0 := rfl

/-- The value of digits that are put together. -/
theorem digitsValue_append (xs ys : List Char) :
    digitsValue (xs ++ ys) = 10 ^ ys.length * digitsValue xs + digitsValue ys := by
  rw [digitsValue_eq, digitsValue_eq, digitsValue_eq, Nat.ofDigitChars_append,
    Nat.ofDigitChars_eq_ofDigitChars_zero]

/-- Zeros are worth nothing. -/
theorem digitsValue_replicate_zero (n : Nat) : digitsValue (List.replicate n '0') = 0 := by
  rw [digitsValue_eq, Nat.ofDigitChars_replicate_zero, Nat.mul_zero]

/-- The digits of a number have its value. -/
theorem digitsValue_toDigits (n : Nat) : digitsValue (Nat.toDigits 10 n) = n :=
  Nat.ofDigitChars_ten_toDigits

/-- The digits of the project are those of the library. -/
theorem isDigit_eq (c : Char) : Text.isDigit c = c.isDigit := rfl

/-- A power of ten as a factor puts zeros behind the digits. -/
theorem toDigits_mul_ten_pow {n : Nat} (hn : 0 < n) :
    ∀ k, Nat.toDigits 10 (n * 10 ^ k) = Nat.toDigits 10 n ++ List.replicate k '0'
  | 0 => by simp
  | k + 1 => by
    have hpos : 0 < n * 10 ^ k := Nat.mul_pos hn (Nat.pow_pos (by decide))
    have hstep := Nat.toDigits_append_toDigits (b := 10) (d := 0) (by decide) hpos (by decide)
    rw [Nat.pow_succ, ← Nat.mul_assoc, Nat.mul_comm (n * 10 ^ k) 10, ← Nat.add_zero (10 * (n * 10 ^ k)),
      ← hstep, toDigits_mul_ten_pow hn k, Nat.toDigits_zero, List.append_assoc, List.replicate_succ']

/-- A power of ten as a factor makes for as many digits more. -/
theorem digitCount_mul_ten_pow {n : Nat} (hn : 0 < n) (k : Nat) :
    digitCount (n * 10 ^ k) = digitCount n + k := by
  simp [digitCount, toDigits_mul_ten_pow hn]

/-! ### Decimals -/

/-- A decimal that is too small for any rank but zero has that one. -/
theorem rankOfDecimal_of_low {d : Decimal} (hlow : (digitCount d.digits : Int) + d.exponent < -330) :
    rankOfDecimal d = 0 :=
  if_pos (by simp [hlow])

/-- A decimal of this size is not taken for zero. -/
theorem not_negligible {d : Decimal} (hpos : 0 < d.digits)
    (hlow : -330 ≤ (digitCount d.digits : Int) + d.exponent) :
    ¬ (decide (d.digits = 0) || decide ((digitCount d.digits : Int) + d.exponent < -330)) = true := by
  simp
  omega

/-- A decimal that is too large for any finite rank is infinite. -/
theorem rankOfDecimal_of_high {d : Decimal} (hpos : 0 < d.digits)
    (hhigh : 310 < (digitCount d.digits : Int) + d.exponent) : rankOfDecimal d = infiniteRank :=
  (if_neg (not_negligible hpos (by omega))).trans (if_pos hhigh)

/-- The rank of a decimal in range, over any power of ten that makes it whole. -/
theorem rankOfDecimal_eq {d : Decimal} (hpos : 0 < d.digits)
    (hlow : -330 ≤ (digitCount d.digits : Int) + d.exponent)
    (hhigh : (digitCount d.digits : Int) + d.exponent ≤ 310) {i j : Nat} (hij : d.exponent + j = i) :
    rankOfDecimal d = rankOfUnits (d.digits * 10 ^ i * unitsPerOne) (10 ^ j) := by
  have hten : ∀ k, 0 < 10 ^ k := fun k => Nat.pow_pos (by decide)
  refine (if_neg (not_negligible hpos hlow)).trans ((if_neg (by omega)).trans ?_)
  generalize unitsPerOne = units
  split
  · next h =>
    obtain ⟨m, hm⟩ := Int.eq_ofNat_of_zero_le h
    obtain rfl : i = m + j := by omega
    rw [Nat.pow_eq, hm, Int.toNat_natCast, ← rankOfUnits_mul_right (hten j) _ 1, Nat.one_mul, Nat.pow_add]
    congr 1
    ring
  · next h =>
    obtain ⟨m, hm⟩ := Int.eq_ofNat_of_zero_le (a := -d.exponent) (by omega)
    obtain rfl : j = m + i := by omega
    rw [Nat.pow_eq, hm, Int.toNat_natCast, ← rankOfUnits_mul_right (hten i), ← Nat.pow_add]
    congr 1
    ring

/-- Decimals of one value have one rank. -/
theorem rankOfDecimal_shift {n : Nat} (hn : 0 < n) (k : Nat) {e f : Int} (hf : f + k = e) :
    rankOfDecimal ⟨n * 10 ^ k, f⟩ = rankOfDecimal ⟨n, e⟩ := by
  have hpos : 0 < n * 10 ^ k := Nat.mul_pos hn (Nat.pow_pos (by decide))
  have hsize : (digitCount (n * 10 ^ k) : Int) + f = digitCount n + e := by
    rw [digitCount_mul_ten_pow hn k]
    omega
  rcases Int.lt_or_le (digitCount n + e) (-330) with hlow | hlow
  · rw [rankOfDecimal_of_low (d := ⟨n, e⟩) hlow]
    exact rankOfDecimal_of_low (d := ⟨n * 10 ^ k, f⟩) (Int.lt_of_le_of_lt (Int.le_of_eq hsize) hlow)
  rcases Int.lt_or_le 310 (digitCount n + e) with hhigh | hhigh
  · rw [rankOfDecimal_of_high (d := ⟨n, e⟩) hn hhigh]
    exact rankOfDecimal_of_high (d := ⟨n * 10 ^ k, f⟩) hpos
      (Int.lt_of_lt_of_le hhigh (Int.le_of_eq hsize.symm))
  obtain ⟨i, j, hij⟩ : ∃ i j : Nat, f + j = i := ⟨(f + (-f).toNat).toNat, (-f).toNat, by omega⟩
  have hij' : e + j = (k + i : Nat) := by omega
  rw [rankOfDecimal_eq (d := ⟨n, e⟩) hn hlow hhigh hij', Nat.pow_add, ← Nat.mul_assoc n]
  exact rankOfDecimal_eq (d := ⟨n * 10 ^ k, f⟩) hpos (Int.le_trans hlow (Int.le_of_eq hsize.symm))
    (Int.le_trans (Int.le_of_eq hsize) hhigh) hij

/-- Every rank but zero is worth something. -/
theorem unitsOfRank_pos {rank : Nat} (hpos : 0 < rank) : 0 < unitsOfRank rank := by
  unfold unitsOfRank
  split
  · exact hpos
  · exact Nat.mul_pos (Nat.add_pos_left (by decide) _) (Nat.two_pow_pos _)

/-- A finite rank is worth less than the largest power of two that can be asked for. -/
theorem unitsOfRank_lt {rank : Nat} (hfinite : rank < infiniteRank) : unitsOfRank rank < 2 ^ 2098 := by
  have hsize : binadeSize = 2 ^ 52 := rfl
  have hquot : rank / binadeSize < 2047 := Nat.div_lt_of_lt_mul (by rwa [Nat.mul_comm])
  unfold unitsOfRank
  split
  · next h => exact Nat.lt_trans h (by decide +kernel)
  · have hlow : binadeSize + rank % binadeSize < 2 ^ 53 := by
      have := Nat.mod_lt rank (show 0 < binadeSize by decide)
      omega
    have hlt := Nat.mul_lt_mul_of_pos_right hlow (Nat.two_pow_pos (rank / binadeSize - 1))
    rw [← Nat.pow_add] at hlt
    rw [Nat.pow_eq]
    have hexponent : 53 + (rank / binadeSize - 1) ≤ 2098 := by omega
    exact hlt.trans_le (pow_le_pow_right₀ one_le_two hexponent)

/-- A number has at most `k` digits if it is below one that does not exceed the power of ten. -/
theorem digitCount_le {m n k : Nat} (hk : 0 < k) (hlt : n < m) (hpow : m ≤ Nat.pow 10 k) : digitCount n ≤ k :=
  (Nat.length_toDigits_le_iff (by decide) hk).2 (Nat.lt_of_lt_of_le hlt hpow)

/-- A number has more than `k` digits if it is no less than one that the power of ten does not exceed. -/
theorem lt_digitCount {m n k : Nat} (hk : 0 < k) (hpow : Nat.pow 10 k ≤ m) (hle : m ≤ n) : k < digitCount n := by
  apply Nat.lt_of_not_le
  intro hfew
  have hlt : n < Nat.pow 10 k := (Nat.length_toDigits_le_iff (by decide) hk).1 hfew
  exact Nat.not_le.2 hlt (Nat.le_trans hpow hle)

/-- The exact decimal of a rank has that rank. -/
theorem rankOfDecimal_exactDecimal {rank : Nat} (hpos : 0 < rank) (hfinite : rank < infiniteRank) :
    rankOfDecimal (exactDecimal rank) = rank := by
  have hunits := unitsOfRank_pos hpos
  have hfive : 0 < Nat.pow 5 1074 := by decide +kernel
  have hdigits : 0 < (exactDecimal rank).digits := Nat.mul_pos hunits hfive
  have hlow : 743 < digitCount (exactDecimal rank).digits := by
    have hle : Nat.pow 5 1074 ≤ (exactDecimal rank).digits := Nat.le_mul_of_pos_left _ hunits
    exact lt_digitCount (by decide) (by decide +kernel) hle
  have hhigh : digitCount (exactDecimal rank).digits ≤ 1383 := by
    have hlt : (exactDecimal rank).digits < 2 ^ 2098 * Nat.pow 5 1074 :=
      Nat.mul_lt_mul_of_pos_right (unitsOfRank_lt hfinite) hfive
    exact digitCount_le (by decide) hlt (by decide +kernel)
  have hexp : (exactDecimal rank).exponent = -1074 := rfl
  rw [rankOfDecimal_eq (i := 0) (j := 1074) hdigits (by omega) (by omega) (by omega)]
  have hten : Nat.pow 5 1074 * unitsPerOne = 10 ^ 1074 := by decide +kernel
  have hscale : (exactDecimal rank).digits * 10 ^ 0 * unitsPerOne = unitsOfRank rank * 10 ^ 1074 := by
    rw [Nat.pow_zero, Nat.mul_one, exactDecimal, Nat.mul_assoc, hten]
  rw [hscale, rankOfUnits_unitsOfRank _ (Nat.pow_pos (by decide))]

/-- The decimal that is written reads back. -/
theorem rankOfDecimal_shortestDecimal (tie : Tie) {rank : Nat} (hpos : 0 < rank)
    (hfinite : rank < infiniteRank) : rankOfDecimal (shortestDecimal tie rank) = rank := by
  unfold shortestDecimal
  simp only
  cases hfind : List.find? _ _ with
  | none => exact rankOfDecimal_exactDecimal hpos hfinite
  | some d => exact rankOfDecimal_of_find?_eq_some hfind

/-! ### Numerals -/

/-- A run of digits, or one with a point in it, and the decimal that it denotes. -/
inductive Numeral : List Char → Decimal → Prop where
  | whole {cs : List Char} (hne : cs ≠ []) (hdigits : ∀ c ∈ cs, isDigit c = true) :
    Numeral cs ⟨digitsValue cs, 0⟩
  | point {cs ds : List Char} (hne : cs ≠ []) (hdigits : ∀ c ∈ cs ++ ds, isDigit c = true) :
    Numeral (cs ++ '.' :: ds) ⟨digitsValue (cs ++ ds), -(ds.length : Int)⟩

/-- A run of digits ends where no digit comes next. -/
theorem takeWhile_isDigit_append {cs : List Char} (hdigits : ∀ c ∈ cs, isDigit c = true) (rest : List Char)
    (hrest : ∀ c ∈ rest.head?, isDigit c = false) :
    (cs ++ rest).takeWhile isDigit = cs ∧ (cs ++ rest).dropWhile isDigit = rest := by
  rw [List.takeWhile_append_of_pos hdigits, List.dropWhile_append_of_pos hdigits]
  cases rest with
  | nil => simp
  | cons c rest => simp [hrest c rfl]

/-- A numeral is read as its decimal. -/
theorem Numeral.read?_eq {cs : List Char} {d : Decimal} : Numeral cs d → Decimal.read? cs = some d
  | .whole hne hdigits => by
    obtain ⟨htake, hdrop⟩ := takeWhile_isDigit_append hdigits [] (by simp)
    rw [List.append_nil] at htake hdrop
    simp [Decimal.read?, htake, hdrop, hne]
  | @Numeral.point cs ds hne hdigits => by
    have hcs : ∀ c ∈ cs, isDigit c = true := fun c hc => hdigits c (List.mem_append_left _ hc)
    have hds : ∀ c ∈ ds, isDigit c = true := fun c hc => hdigits c (List.mem_append_right _ hc)
    obtain ⟨htake, hdrop⟩ := takeWhile_isDigit_append hcs ('.' :: ds) (by simp; decide)
    obtain ⟨htake', hdrop'⟩ := takeWhile_isDigit_append hds [] (by simp)
    rw [List.append_nil] at htake' hdrop'
    simp [Decimal.read?, htake, hdrop, htake', hdrop', hne]

/-- A numeral starts with a digit and has only digits and points. -/
theorem Numeral.chars {cs : List Char} {d : Decimal} : Numeral cs d →
    (∃ c ds, cs = c :: ds ∧ isDigit c = true) ∧ ∀ c ∈ cs, (isDigit c || c = '.') = true
  | .whole hne hdigits => by
    obtain ⟨c, ds, rfl⟩ := List.exists_cons_of_ne_nil hne
    exact ⟨⟨c, ds, rfl, hdigits c List.mem_cons_self⟩, fun b hb => by rw [hdigits b hb, Bool.true_or]⟩
  | @Numeral.point cs ds hne hdigits => by
    have hpoint : ∀ c ∈ cs ++ '.' :: ds, (isDigit c || c = '.') = true := by
      intro c hc
      rcases List.mem_append.1 hc with hc | hc
      · rw [hdigits c (List.mem_append_left _ hc), Bool.true_or]
      · rcases List.mem_cons.1 hc with rfl | hc
        · rfl
        · rw [hdigits c (List.mem_append_right _ hc), Bool.true_or]
    obtain ⟨c, cs, rfl⟩ := List.exists_cons_of_ne_nil hne
    exact ⟨⟨c, cs ++ '.' :: ds, rfl, hdigits c List.mem_cons_self⟩, hpoint⟩

/-! ### The layout of digits -/

/-- Characters are some zeros and then the rest. -/
theorem exists_replicate_append_dropWhile :
    ∀ cs : List Char, ∃ t, cs = List.replicate t '0' ++ cs.dropWhile (· = '0')
  | [] => ⟨0, rfl⟩
  | c :: cs => by
    by_cases hc : c = '0'
    · obtain ⟨t, ht⟩ := exists_replicate_append_dropWhile cs
      refine ⟨t + 1, ?_⟩
      rw [List.dropWhile_cons_of_pos (by simpa using hc), List.replicate_succ, List.cons_append, ← ht, hc]
    · exact ⟨0, by simp [hc]⟩

/-- The digits of a number are the significant ones and zeros. -/
theorem toDigits_eq_significantDigits (n : Nat) :
    ∃ t, Nat.toDigits 10 n = significantDigits n ++ List.replicate t '0' := by
  obtain ⟨t, ht⟩ := exists_replicate_append_dropWhile (Nat.toDigits 10 n).reverse
  refine ⟨t, ?_⟩
  rw [← List.reverse_inj, ht, significantDigits, List.reverse_append, List.reverse_reverse,
    List.reverse_replicate]

/-- A number is that of its significant digits with zeros behind them. -/
theorem exists_significantDigits (n : Nat) :
    ∃ t, n = digitsValue (significantDigits n) * 10 ^ t ∧
      digitCount n = (significantDigits n).length + t := by
  obtain ⟨t, ht⟩ := toDigits_eq_significantDigits n
  refine ⟨t, ?_, ?_⟩
  · conv_lhs => rw [← digitsValue_toDigits n, ht, digitsValue_append, digitsValue_replicate_zero]
    rw [List.length_replicate, Nat.add_zero, Nat.mul_comm]
  · rw [digitCount, ht, List.length_append, List.length_replicate]

/-- A number other than zero has significant digits, and they are worth something. -/
theorem significantDigits_pos {n : Nat} (hn : 0 < n) :
    significantDigits n ≠ [] ∧ (∀ c ∈ significantDigits n, isDigit c = true) ∧
      0 < digitsValue (significantDigits n) := by
  obtain ⟨t, ht⟩ := toDigits_eq_significantDigits n
  obtain ⟨t', hvalue, -⟩ := exists_significantDigits n
  have hpos : 0 < digitsValue (significantDigits n) := Nat.pos_of_mul_pos_right (hvalue ▸ hn)
  refine ⟨fun hnil => ?_, fun c hc => ?_, hpos⟩
  · rw [hnil] at hpos
    exact Nat.lt_irrefl 0 hpos
  · rw [isDigit_eq]
    exact Nat.isDigit_of_mem_toDigits (by decide) (by decide) (ht ▸ List.mem_append_left _ hc)

/-- Digits around a point make a numeral, and the value of the digits counts `10 ^ exponent` in it. -/
theorem numeral_positional {ds : List Char} (hne : ds ≠ []) (hdigits : ∀ c ∈ ds, isDigit c = true)
    (hpos : 0 < digitsValue ds) (exponent size : Int) (hsize : size = ds.length - 1 + exponent) :
    ∃ d, Numeral (positional "" ds size).toList d ∧
      rankOfDecimal d = rankOfDecimal ⟨digitsValue ds, exponent⟩ := by
  have hzeros : ∀ n, ∀ c ∈ List.replicate n '0', isDigit c = true := by
    intro n c hc
    rw [List.eq_of_mem_replicate hc]
    rfl
  unfold positional
  split
  · next hneg =>
    -- The point stands before the digits, behind them all, or between them.
    have htext : ("0." ++ String.ofList (List.replicate (-size - 1).toNat '0' ++ ds)).toList =
        ['0'] ++ '.' :: (List.replicate (-size - 1).toNat '0' ++ ds) := by simp
    rw [htext]
    have hall : ∀ c ∈ ['0'] ++ (List.replicate (-size - 1).toNat '0' ++ ds), isDigit c = true :=
      List.forall_mem_append.2 ⟨hzeros 1, List.forall_mem_append.2 ⟨hzeros _, hdigits⟩⟩
    refine ⟨_, .point (by decide) hall, ?_⟩
    rw [← List.append_assoc, digitsValue_append, show ['0'] = List.replicate 1 '0' from rfl,
      List.replicate_append_replicate, digitsValue_replicate_zero, Nat.mul_zero, Nat.zero_add]
    have hexponent : -((List.replicate (-size - 1).toNat '0' ++ ds).length : Int) = exponent := by
      rw [List.length_append, List.length_replicate]
      omega
    rw [hexponent]
  · next hnneg =>
    simp only
    split
    · next hlen =>
      rw [String.append_empty, String.toList_ofList]
      refine ⟨_, .whole (by simp [hne]) (List.forall_mem_append.2 ⟨hdigits, hzeros _⟩), ?_⟩
      rw [digitsValue_append, digitsValue_replicate_zero, List.length_replicate, Nat.add_zero, Nat.mul_comm]
      exact rankOfDecimal_shift hpos _ (by omega)
    · next hlen =>
      have htext : (String.ofList (ds.take (size.toNat + 1)) ++ "." ++
          String.ofList (ds.drop (size.toNat + 1))).toList =
          ds.take (size.toNat + 1) ++ '.' :: ds.drop (size.toNat + 1) := by simp
      rw [htext]
      have hwhole : ds.take (size.toNat + 1) ≠ [] := by simp [hne]
      have hexponent : -((ds.drop (size.toNat + 1)).length : Int) = exponent := by
        rw [List.length_drop]
        omega
      refine ⟨_, .point hwhole (by rwa [List.take_append_drop]), ?_⟩
      rw [List.take_append_drop, hexponent]

/-- The text of a finite number without a sign is a numeral of that number. -/
theorem numeral_text {x : Number} (hsign : x.negative = false) (hfinite : x.isInfinite = false) :
    ∃ d, Numeral x.text.toList d ∧ ofDecimal d = x := by
  have hrank : x.rank < infiniteRank := by
    have hle := x.rank_le
    have hne : x.rank ≠ infiniteRank := by simpa [isInfinite] using hfinite
    omega
  have hof : ∀ d, rankOfDecimal d = x.rank → ofDecimal d = x := by
    intro d hd
    obtain ⟨negative, rank, hle⟩ := x
    simp only at hsign hd
    simp [ofDecimal, ofRank, hd, hsign, Nat.min_eq_left hle]
  have htext : x.text = renderRank .plain x.rank := by simp [text, render, hsign, hfinite]
  rw [htext, renderRank]
  split
  · next hzero =>
    have hnumeral : Numeral ['0'] ⟨0, 0⟩ := .whole (by decide) (List.forall_mem_singleton.2 rfl)
    have hrank' : rankOfDecimal ⟨0, 0⟩ = x.rank := by rw [hzero]; rfl
    exact ⟨_, hnumeral, hof _ hrank'⟩
  · next hzero =>
    have hd := rankOfDecimal_shortestDecimal NumberFormat.plain.tie (Nat.pos_of_ne_zero hzero) hrank
    generalize shortestDecimal NumberFormat.plain.tie x.rank = d at hd ⊢
    obtain ⟨n, e⟩ := d
    have hn : 0 < n := by
      apply Nat.pos_of_ne_zero
      rintro rfl
      exact hzero hd.symm
    -- The digits that are written lack the zeros at the end, which the exponent makes up for.
    obtain ⟨t, hvalue, hcount⟩ := exists_significantDigits n
    obtain ⟨hne, hdigits, hpos⟩ := significantDigits_pos hn
    obtain ⟨d, hnum, hshift⟩ := numeral_positional hne hdigits hpos (e + t)
      (digitCount n - 1 + e) (by omega)
    refine ⟨d, hnum, hof d ?_⟩
    rw [hshift, ← rankOfDecimal_shift hpos t (f := e) rfl, ← hvalue, hd]

/-- The text of a finite number without a sign reads as the number. -/
theorem read?_text {x : Number} (hsign : x.negative = false) (hfinite : x.isInfinite = false) :
    read? x.text.toList = some x := by
  obtain ⟨d, hnum, hd⟩ := numeral_text hsign hfinite
  rw [read?, hnum.read?_eq, Option.map_some, hd]

end Number

end ViewTemplate
