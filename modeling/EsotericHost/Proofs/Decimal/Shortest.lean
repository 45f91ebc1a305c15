import EsotericHost.Decimal.Shortest
import EsotericHost.Proofs.Decimal.Nearest
import Mathlib.Data.Nat.Cast.Order.Field

/-!
# The shortest decimal is near its double

On each grid `shortest` tries the point nearest to the double first. On the grid of seventeen digits
that point lies in the cell of the double, and so it does on the grid of the smallest double. So
`shortest` finds a decimal that has the double as a nearest one, with digits enough for no more than
64 bits and an exponent that no double goes below (`shortest_spec`).
-/

namespace EsotericHost.Decimal

/-- The number that the digits stand for. -/
def Digits.value (d : Digits) : ℚ :=
  d.digits * 10 ^ d.exponent

/-- The powers of ten are positive. -/
theorem ten_zpow_pos (k : Int) : (0 : ℚ) < 10 ^ k :=
  zpow_pos (by norm_num) k

/-- The parts of the power of ten. -/
theorem tenPow_value (k : Int) : ((tenPow k).1 : ℚ) / (tenPow k).2 = 10 ^ k := by
  unfold tenPow
  split
  · rename_i h
    rw [Nat.cast_one, div_one, Nat.pow_eq, Nat.cast_pow, ← zpow_natCast, Int.toNat_of_nonneg h]
    norm_num
  · rename_i h
    rw [Nat.pow_eq, Nat.cast_pow, Nat.cast_one, one_div, ← zpow_natCast,
      Int.toNat_of_nonneg (by omega), zpow_neg, inv_inv]
    norm_num

/-- The parts of the power of ten are positive. -/
theorem tenPow_pos (k : Int) : 0 < (tenPow k).1 ∧ 0 < (tenPow k).2 := by
  unfold tenPow
  split
  · exact ⟨Nat.pow_pos (by decide), Nat.one_pos⟩
  · exact ⟨Nat.one_pos, Nat.pow_pos (by decide)⟩

/-! ## The exponent of a number -/

/-- The decimal exponent that `decimalExponent` estimates from a binary one. -/
def estimate (l : Int) : Int :=
  (l * 30103).fdiv 100000

/-- The estimate is off by less than one, with room for the bits after the leading ones. -/
def Estimated (l : Int) : Prop :=
  (tenPow (estimate l - 1)).1 * 2 ^ (1 - l).toNat ≤ 2 ^ (l - 1).toNat * (tenPow (estimate l - 1)).2 ∧
  2 ^ (l + 1).toNat * (tenPow (estimate l + 2)).2 ≤ (tenPow (estimate l + 2)).1 * 2 ^ (-1 - l).toNat

instance (l : Int) : Decidable (Estimated l) :=
  inferInstanceAs (Decidable (_ ∧ _))

/-- The estimate serves for numbers as large and as small as doubles. -/
theorem estimated_table : ∀ a < 47, ∀ b < 47, Estimated (47 * (a : Nat) + (b : Nat) - 1100) := by
  decide +kernel

/-- The same of the powers themselves. -/
theorem estimate_spec {l : Int} (hlow : -1100 ≤ l) (hhigh : l < 1100) :
    (10 : ℚ) ^ (estimate l - 1) ≤ 2 ^ (l - 1) ∧ (2 : ℚ) ^ (l + 1) ≤ 10 ^ (estimate l + 2) := by
  have htable := estimated_table ((l + 1100) / 47).toNat (by omega) ((l + 1100) % 47).toNat (by omega)
  rw [show (47 * (((l + 1100) / 47).toNat : Int) + ((l + 1100) % 47).toNat - 1100) = l by omega]
    at htable
  have hpos (k : Int) : (0 : ℚ) < (tenPow k).2 := by exact_mod_cast (tenPow_pos k).2
  have htwo (k : Nat) : (0 : ℚ) < 2 ^ k := pow_pos two_pos k
  rw [← tenPow_value, ← tenPow_value, zpow_eq_div two_ne_zero, zpow_eq_div two_ne_zero,
    show -(l - 1) = 1 - l by omega, show -(l + 1) = -1 - l by omega,
    div_le_div_iff₀ (hpos _) (htwo _), div_le_div_iff₀ (htwo _) (hpos _)]
  exact_mod_cast htable

variable {num den : Nat}

/-- The number is at least the power of ten that `decimalExponent` finds, and below the next. -/
theorem decimalExponent_spec (hnum : 0 < num) (hden : 0 < den)
    (hlow : (2 : ℚ) ^ (-1099 : Int) ≤ num / den) (hhigh : (num / den : ℚ) < 2 ^ (1098 : Int)) :
    (10 : ℚ) ^ decimalExponent num den ≤ num / den ∧
      (num / den : ℚ) < 10 ^ (decimalExponent num den + 1) := by
  obtain ⟨habove, hbelow⟩ := log2_quotient hnum hden
  have hreaches (k : Int) :
      (tenPow k).1 * den ≤ num * (tenPow k).2 ↔ (10 : ℚ) ^ k ≤ num / den := by
    have hpos : (0 : ℚ) < (tenPow k).2 := by exact_mod_cast (tenPow_pos k).2
    rw [← tenPow_value, div_le_div_iff₀ hpos (by exact_mod_cast hden)]
    exact_mod_cast Iff.rfl
  have hmore := (zpow_lt_zpow_iff_right₀ one_lt_two).mp (lt_of_le_of_lt hlow hbelow)
  have hless := (zpow_lt_zpow_iff_right₀ one_lt_two).mp (lt_trans habove hhigh)
  obtain ⟨hfloor, hceiling⟩ := estimate_spec (l := num.log2 - den.log2) (by omega) (by omega)
  have hmono {i j : Int} (h : i ≤ j) : (10 : ℚ) ^ i ≤ 10 ^ j :=
    zpow_le_zpow_right₀ (by norm_num) h
  have hcases : decimalExponent num den =
      if (10 : ℚ) ^ (estimate (num.log2 - den.log2) + 1) ≤ num / den then
        estimate (num.log2 - den.log2) + 1
      else if (10 : ℚ) ^ estimate (num.log2 - den.log2) ≤ num / den then
        estimate (num.log2 - den.log2)
      else estimate (num.log2 - den.log2) - 1 := by
    simp only [decimalExponent, decide_eq_true_eq, hreaches]
    rfl
  rw [hcases]
  generalize estimate (num.log2 - den.log2) = k at *
  split_ifs with hnext hat
  · exact ⟨hnext, lt_of_lt_of_le hbelow (le_trans hceiling (hmono (by omega)))⟩
  · exact ⟨hat, lt_of_lt_of_le (not_le.mp hnext) (hmono (by omega))⟩
  · exact ⟨le_trans hfloor habove.le, lt_of_lt_of_le (not_le.mp hat) (hmono (by omega))⟩

/-! ## The cell of a double -/

variable {n : Nat} {c : Cell} {d : Digits} {k : Int}

/-- The cell of the double at a position reaches up to the middles to the doubles at either side. -/
structure Cell.Of (c : Cell) (n : Nat) : Prop where
  den : 0 < c.den
  value : (c.value : ℚ) / c.den = valueAt n
  low : (c.low : ℚ) / c.den = (valueAt (n - 1) + valueAt n) / 2
  high : (c.high : ℚ) / c.den = (valueAt n + valueAt (n + 1)) / 2

/-- Below the leading bit of an exponent the doubles are twice as close. -/
theorem exponentAt_before (n : Nat) : exponentAt n =
    if mantissaAt (n + 1) = leadingBit ∧ minExponent < exponentAt (n + 1)
    then exponentAt (n + 1) - 1 else exponentAt (n + 1) := by
  rcases Nat.lt_or_ge (n + 1) leadingBit with hlt | hge
  · have hmin : exponentAt (n + 1) = minExponent := if_pos hlt
    rw [hmin, if_neg (by simp)]
    exact if_pos (by omega)
  · have hmantissa : mantissaAt (n + 1) = (n + 1) % leadingBit + leadingBit := if_neg (by omega)
    have hexponent : exponentAt (n + 1) = ((n + 1) / leadingBit : Nat) + minExponent - 1 :=
      if_neg (by omega)
    rw [hmantissa, hexponent, exponentAt]
    unfold leadingBit at *
    split <;> split <;> omega

/-- The cell that is computed for a double is its cell. -/
theorem cellOf_spec (hn : 0 < n) : (cellOf (mantissaAt n) (exponentAt n)).Of n := by
  obtain ⟨p, rfl⟩ : ∃ p, n = p + 1 := ⟨n - 1, by omega⟩
  have hbefore := valueAt_succ_sub p
  rw [exponentAt_before] at hbefore
  have hafter := valueAt_succ_sub (p + 1)
  have hm := mantissaAt_pos hn
  have hvalue : valueAt (p + 1) = mantissaAt (p + 1) * 2 ^ exponentAt (p + 1) := rfl
  generalize mantissaAt (p + 1) = m at *
  generalize exponentAt (p + 1) = e at *
  have hup : (if 0 ≤ e then 1 <<< e.toNat else 1) = 2 ^ e.toNat := by
    split
    · rw [Nat.one_shiftLeft]
    · rw [Int.toNat_of_nonpos (by omega), pow_zero]
  have hdown : (if 0 ≤ e then 1 else 1 <<< (-e).toNat) = 2 ^ (-e).toNat := by
    split
    · rw [Int.toNat_of_nonpos (by omega), pow_zero]
    · rw [Nat.one_shiftLeft]
  have htwo (k : Nat) : (2 : ℚ) ^ k ≠ 0 := pow_ne_zero k two_ne_zero
  have hscale (q : ℚ) : q * 2 ^ e.toNat / (4 * 2 ^ (-e).toNat) = q / 4 * 2 ^ e := by
    rw [zpow_eq_div two_ne_zero e]
    have := htwo (-e).toNat
    field_simp
  simp only [cellOf, hup, hdown]
  refine ⟨Nat.mul_pos (by decide) (Nat.two_pow_pos _), ?_, ?_, ?_⟩
  · push_cast
    rw [hscale, hvalue]
    ring
  · have hless : (if m = leadingBit ∧ minExponent < e then 1 else 2) ≤ 4 * m := by split <;> omega
    push_cast [Nat.cast_sub hless]
    rw [hscale]
    split at hbefore
    · rename_i h
      rw [if_pos h]
      rw [zpow_sub_one₀ two_ne_zero] at hbefore
      linarith
    · rename_i h
      rw [if_neg h]
      linarith
  · push_cast
    rw [hscale]
    linarith

/-- The ends of a cell and a decimal are compared as fractions of one denominator. -/
theorem Cell.holds_iff (hc : 0 < c.den) (d : Digits) : c.holds d ↔
    if c.closed then (c.low : ℚ) / c.den ≤ d.value ∧ d.value ≤ c.high / c.den
    else (c.low : ℚ) / c.den < d.value ∧ d.value < c.high / c.den := by
  have hpos : (0 : ℚ) < (tenPow d.exponent).2 := by exact_mod_cast (tenPow_pos d.exponent).2
  have hden : (0 : ℚ) < c.den := by exact_mod_cast hc
  unfold Cell.holds Digits.value
  rw [← tenPow_value, mul_div_assoc', div_le_div_iff₀ hden hpos, div_le_div_iff₀ hpos hden,
    div_lt_div_iff₀ hden hpos, div_lt_div_iff₀ hpos hden]
  generalize tenPow d.exponent = t
  obtain ⟨num, den⟩ := t
  dsimp only
  split <;> rw [Bool.and_eq_true, decide_eq_true_eq, decide_eq_true_eq] <;>
    exact_mod_cast Iff.rfl

/-- A decimal that the cell holds lies between its ends. -/
theorem Cell.bounds_of_holds (hc : 0 < c.den) (h : c.holds d) :
    (c.low : ℚ) / c.den ≤ d.value ∧ d.value ≤ c.high / c.den := by
  rw [Cell.holds_iff hc] at h
  split at h
  · exact h
  · exact ⟨h.1.le, h.2.le⟩

/-- The cell holds each decimal that lies inside its ends. -/
theorem Cell.holds_of_lt (hc : 0 < c.den) (hlow : (c.low : ℚ) / c.den < d.value)
    (hhigh : d.value < c.high / c.den) : c.holds d := by
  rw [Cell.holds_iff hc]
  split
  · exact ⟨hlow.le, hhigh.le⟩
  · exact ⟨hlow, hhigh⟩

/-- The cell told as a quotient of its value by a power of ten. -/
theorem Cell.quotient_eq (c : Cell) (k : Int) :
    ((c.value * (tenPow k).2 : Nat) : ℚ) / ((tenPow k).1 * c.den : Nat) =
      c.value / c.den / 10 ^ k := by
  rw [← tenPow_value, div_div_div_eq]
  push_cast
  rw [mul_comm (c.den : ℚ)]

/-- A point of the grid that is found is one of the two next to the value, and the cell holds it. -/
theorem Cell.of_onGrid (h : c.onGrid k = some d) : 0 < d.digits ∧ c.holds d ∧ d.exponent = k ∧
    d.digits ≤ c.value * (tenPow k).2 / ((tenPow k).1 * c.den) + 1 := by
  unfold onGrid at h
  generalize tenPow k = t at h ⊢
  obtain ⟨num, den⟩ := t
  dsimp only at h ⊢
  have hpoint {e : Digits} (hfound : (e.digits ≠ 0 && c.holds e) = true) :
      0 < e.digits ∧ c.holds e := by
    rw [Bool.and_eq_true, decide_eq_true_eq] at hfound
    exact ⟨Nat.pos_of_ne_zero hfound.1, hfound.2⟩
  have hpick {first second : Digits}
      (hfound : (if (first.digits ≠ 0 && c.holds first) = true then some first
        else if (second.digits ≠ 0 && c.holds second) = true then some second else none) = some d) :
      (0 < d.digits ∧ c.holds d) ∧ (d = first ∨ d = second) := by
    split_ifs at hfound with hfirst hsecond <;> cases hfound
    · exact ⟨hpoint hfirst, .inl rfl⟩
    · exact ⟨hpoint hsecond, .inr rfl⟩
  obtain ⟨⟨hdigits, hholds⟩, heq⟩ := hpick h
  refine ⟨hdigits, hholds, ?_⟩
  split at heq <;> rcases heq with rfl | rfl <;> simp

/-- The nearer of the two points is found if the cell holds it. -/
theorem Cell.onGrid_ne_none
    (hpos : 0 < divRoundEven (c.value * (tenPow k).2) ((tenPow k).1 * c.den))
    (hholds : c.holds ⟨divRoundEven (c.value * (tenPow k).2) ((tenPow k).1 * c.den), k⟩) :
    c.onGrid k ≠ none := by
  unfold onGrid
  generalize tenPow k = t at *
  obtain ⟨num, den⟩ := t
  dsimp only at *
  have hpick {first second : Digits} (hfirst : (first.digits ≠ 0 && c.holds first) = true) :
      (if (first.digits ≠ 0 && c.holds first) = true then some first
        else if (second.digits ≠ 0 && c.holds second) = true then some second else none) ≠ none := by
    rw [if_pos hfirst]
    exact Option.some_ne_none first
  apply hpick
  have hnearer : (if (decide (2 * (c.value * den % (num * c.den)) < num * c.den) ||
        decide (2 * (c.value * den % (num * c.den)) = num * c.den) &&
        decide (c.value * den / (num * c.den) % 2 = 0)) = true
      then c.value * den / (num * c.den) else c.value * den / (num * c.den) + 1) =
      divRoundEven (c.value * den) (num * c.den) := by
    unfold divRoundEven
    simp only [Bool.or_eq_true, Bool.and_eq_true, decide_eq_true_eq]
    split_ifs <;> omega
  rw [apply_ite Prod.fst]
  dsimp only
  rw [← apply_ite (Digits.mk · k), hnearer, Bool.and_eq_true, decide_eq_true_eq]
  exact ⟨hpos.ne', hholds⟩

/-! ## The shortest decimal -/

/-- On a grid that is finer than the steps to the doubles at either side a point is found. -/
theorem Cell.Of.onGrid_ne_none (hc : c.Of n) (hk : (10 : ℚ) ^ k ≤ valueAt n)
    (hbelow : (10 : ℚ) ^ k < valueAt n - valueAt (n - 1))
    (habove : (10 : ℚ) ^ k < valueAt (n + 1) - valueAt n) : c.onGrid k ≠ none := by
  have hten := ten_zpow_pos k
  have hround := abs_divRoundEven_sub_le (c.value * (tenPow k).2)
    (Nat.mul_pos (tenPow_pos k).1 hc.den)
  rw [Cell.quotient_eq, hc.value] at hround
  -- The nearest point of the grid is off by no more than half of the distance of two points.
  have hoff : |(divRoundEven (c.value * (tenPow k).2) ((tenPow k).1 * c.den) : ℚ) * 10 ^ k -
      valueAt n| ≤ 10 ^ k / 2 := by
    have hscaled := mul_le_mul_of_nonneg_right hround hten.le
    rw [← abs_of_pos hten, ← abs_mul, abs_of_pos hten, sub_mul, div_mul_cancel₀ _ hten.ne']
      at hscaled
    linarith
  obtain ⟨hlow, hhigh⟩ := abs_le.mp hoff
  apply Cell.onGrid_ne_none
  · have hone : ((1 : Nat) : ℚ) ≤ valueAt n / 10 ^ k := by
      rw [Nat.cast_one, one_le_div hten]
      exact hk
    exact ge_of_rounded hround hone
  · apply Cell.holds_of_lt hc.den
    · rw [hc.low, Digits.value]
      linarith
    · rw [hc.high, Digits.value]
      linarith

/-- A decimal that the cell of a double holds has that double as a nearest one. -/
theorem Cell.Of.nearest (hc : c.Of n) (h : c.holds d) : Nearest d.value n := by
  obtain ⟨hlow, hhigh⟩ := Cell.bounds_of_holds hc.den h
  rw [hc.low] at hlow
  rw [hc.high] at hhigh
  exact ⟨by linarith, by linarith⟩

/-- Without the zeros at the end the digits stand for the same number, and are no more. -/
theorem Digits.trim_spec (fuel : Nat) (d : Digits) : (d.trim fuel).value = d.value ∧
    (0 < d.digits → 0 < (d.trim fuel).digits) ∧ (d.trim fuel).digits ≤ d.digits ∧
    d.exponent ≤ (d.trim fuel).exponent := by
  induction fuel generalizing d with
  | zero => simp [trim]
  | succ fuel ih =>
    unfold trim
    split
    · rename_i hzero
      obtain ⟨hvalue, hpos, hdigits, hexponent⟩ := ih ⟨d.digits / 10, d.exponent + 1⟩
      refine ⟨?_, fun h => hpos (by dsimp only; omega), by dsimp only at hdigits; omega,
        by dsimp only at hexponent; omega⟩
      have htens : (d.digits : ℚ) = 10 * (d.digits / 10 : Nat) := by
        exact_mod_cast (by omega : d.digits = 10 * (d.digits / 10))
      rw [hvalue, value, value, htens, zpow_add_one₀ (by norm_num)]
      ring
    · exact ⟨rfl, id, le_rfl, le_rfl⟩

/-- The value of a double lies between the power of ten with its exponent and the next. -/
theorem Cell.Of.decimalExponent_spec (hc : c.Of n) (hn : 0 < n) (hfinite : n < infinityBits) :
    (10 : ℚ) ^ decimalExponent c.value c.den ≤ valueAt n ∧
      valueAt n < 10 ^ (decimalExponent c.value c.den + 1) := by
  have hpos : 0 < c.value := by
    by_contra h
    have hzero := hc.value
    rw [Nat.eq_zero_of_not_pos h, Nat.cast_zero, zero_div] at hzero
    exact (valueAt_pos hn).ne hzero
  have hlow : (2 : ℚ) ^ (-1099 : Int) ≤ 2 ^ minExponent :=
    zpow_le_zpow_right₀ one_le_two (by decide)
  have hhigh : (2 : ℚ) ^ (1024 : Int) ≤ 2 ^ (1098 : Int) :=
    zpow_le_zpow_right₀ one_le_two (by decide)
  rw [← hc.value]
  apply Decimal.decimalExponent_spec hpos hc.den
  · rw [hc.value]
    exact le_trans hlow (least_le_valueAt hn)
  · rw [hc.value]
    exact lt_of_lt_of_le (valueAt_lt hfinite) hhigh

/-- The least exponent of a decimal: that of the least double. -/
def leastTens : Int := -324

/-- The power of ten with the least exponent is less than the least double. -/
theorem ten_zpow_leastTens_lt : (10 : ℚ) ^ leastTens < 2 ^ minExponent := by
  have hless : 2 ^ 1074 < 10 ^ 324 := by decide +kernel
  rw [show leastTens = -((324 : Nat) : Int) from rfl, show minExponent = -((1074 : Nat) : Int) from rfl,
    zpow_neg, zpow_neg, zpow_natCast, zpow_natCast]
  exact inv_strictAnti₀ (pow_pos two_pos 1074) (by exact_mod_cast hless)

/-- The decimal exponent of a double is not below the least. -/
theorem Cell.Of.leastTens_le (hc : c.Of n) (hn : 0 < n) (hfinite : n < infinityBits) :
    leastTens ≤ decimalExponent c.value c.den := by
  obtain ⟨-, hhigh⟩ := hc.decimalExponent_spec hn hfinite
  have hless := lt_trans (lt_of_lt_of_le ten_zpow_leastTens_lt (least_le_valueAt hn)) hhigh
  have := (zpow_lt_zpow_iff_right₀ (by norm_num : (1 : ℚ) < 10)).mp hless
  omega

/-- The grid of the least double has a point for each double. -/
theorem Cell.Of.onGrid_leastTens (hc : c.Of n) (hn : 0 < n) : c.onGrid leastTens ≠ none := by
  obtain ⟨p, rfl⟩ : ∃ p, n = p + 1 := ⟨n - 1, by omega⟩
  have hten := ten_zpow_leastTens_lt
  have hbelow := valueAt_add_le p 1
  have habove := valueAt_add_le (p + 1) 1
  rw [Nat.cast_one, one_mul] at hbelow habove
  refine hc.onGrid_ne_none (le_trans hten.le (least_le_valueAt hn)) ?_ ?_
  · rw [Nat.add_sub_cancel]
    linarith
  · linarith

/-- So has the grid of seventeen digits. -/
theorem Cell.Of.onGrid_seventeen (hc : c.Of n) (hn : 0 < n) (hfinite : n < infinityBits) :
    c.onGrid (decimalExponent c.value c.den - 16) ≠ none := by
  obtain ⟨hlow, -⟩ := hc.decimalExponent_spec hn hfinite
  obtain ⟨p, rfl⟩ : ∃ p, n = p + 1 := ⟨n - 1, by omega⟩
  have hvalue := valueAt_pos hn
  have hbelow := valueAt_le_shrunk p
  have habove := valueAt_le_shrunk (p + 1)
  have hmono := valueAt_strictMono (Nat.lt_succ_self (p + 1))
  -- Sixteen digits less are finer than the half of a unit.
  have hfine : (10 : ℚ) ^ (decimalExponent c.value c.den - 16) < halfUnit * valueAt (p + 1) := by
    rw [zpow_sub₀ (by norm_num)]
    norm_num [halfUnit, leadingBit]
    linarith
  have hhalf := halfUnit_lt_one
  have hunit := mul_lt_mul_of_pos_left hmono halfUnit_pos
  refine hc.onGrid_ne_none (le_trans hfine.le ?_) ?_ ?_
  · exact mul_le_of_le_one_left hvalue.le hhalf.le
  · rw [Nat.add_sub_cancel]
    linarith
  · linarith

/-- The first grid with a hit is no finer than that of the least double. -/
theorem Cell.Of.exists_hit (hc : c.Of n) (hn : 0 < n) (hfinite : n < infinityBits) :
    ∃ i : Nat, i ≤ 16 ∧ leastTens ≤ decimalExponent c.value c.den - i ∧ ∃ d,
      c.onGrid (decimalExponent c.value c.den - i) = some d ∧
      (List.range 17).findSome? (fun (places : Nat) =>
        c.onGrid (decimalExponent c.value c.den - places)) = some d := by
  have hleast := hc.leastTens_le hn hfinite
  have hseventeen := hc.onGrid_seventeen hn hfinite
  generalize decimalExponent c.value c.den = top at *
  have hfound : (List.range 17).findSome? (fun (places : Nat) => c.onGrid (top - places)) ≠ none :=
    fun h => hseventeen (List.findSome?_eq_none_iff.mp h 16 (by decide))
  obtain ⟨d, hd⟩ := Option.ne_none_iff_exists'.mp hfound
  obtain ⟨before, i, after, hrange, hhit, hmisses⟩ := List.findSome?_eq_some_iff.mp hd
  have hi : i < 17 := List.mem_range.mp (by rw [hrange]; simp)
  refine ⟨i, by omega, ?_, d, hhit, hd⟩
  -- The grid of the least double would have come first.
  by_contra hfine
  have hj : (top - leastTens).toNat ∈ List.range 17 := List.mem_range.mpr (by omega)
  have hsorted : (List.range 17).Pairwise (· < ·) := List.pairwise_lt_range
  rw [hrange, List.pairwise_append, List.pairwise_cons] at hsorted
  rw [hrange, List.mem_append, List.mem_cons] at hj
  rcases hj with hbefore | heq | hafter
  · have hmiss := hmisses _ hbefore
    rw [Int.toNat_of_nonneg (by omega), sub_sub_cancel] at hmiss
    exact hc.onGrid_leastTens hn hmiss
  · omega
  · have := hsorted.2.1.1 _ hafter
    omega

/-- The shortest decimal of a double has it as a nearest one; its digits fit 64 bits, and its
exponent is not below that of the least double. -/
theorem shortest_spec (hn : 0 < n) (hfinite : n < infinityBits) :
    let d := shortest (mantissaAt n) (exponentAt n)
    Nearest d.value n ∧ 0 < d.digits ∧ d.digits < Word.natBound ∧ leastTens ≤ d.exponent := by
  have hc : (cellOf (mantissaAt n) (exponentAt n)).Of n := cellOf_spec hn
  unfold shortest
  generalize cellOf (mantissaAt n) (exponentAt n) = c at *
  obtain ⟨i, hi, hleast, d, hgrid, hfirst⟩ := hc.exists_hit hn hfinite
  dsimp only
  rw [hfirst]
  obtain ⟨hpos, hholds, hexponent, hdigits⟩ := Cell.of_onGrid hgrid
  obtain ⟨hvalue, htrim, hless, hmore⟩ := d.trim_spec 17
  dsimp only
  refine ⟨by rw [hvalue]; exact hc.nearest hholds, htrim hpos, ?_, by omega⟩
  -- On a grid of no more than seventeen digits the value is below that many tens.
  obtain ⟨-, hhigh⟩ := hc.decimalExponent_spec hn hfinite
  generalize decimalExponent c.value c.den = top at *
  have hscaled : ((c.value * (tenPow (top - i)).2 / ((tenPow (top - i)).1 * c.den) : Nat) : ℚ) <
      (10 ^ 17 : Nat) :=
    calc _ ≤ ((c.value * (tenPow (top - i)).2 : Nat) : ℚ) / ((tenPow (top - i)).1 * c.den : Nat) :=
          Nat.cast_div_le
      _ = valueAt n / 10 ^ (top - i) := by rw [Cell.quotient_eq, hc.value]
      _ < 10 ^ (top + 1) / 10 ^ (top - i) := div_lt_div_of_pos_right hhigh (ten_zpow_pos _)
      _ = 10 ^ ((i + 1 : Nat) : Int) := by
        rw [← zpow_sub₀ (by norm_num)]
        congr 1
        omega
      _ ≤ (10 ^ 17 : Nat) := by
        rw [zpow_natCast]
        exact_mod_cast Nat.pow_le_pow_right (by decide) (by omega : i + 1 ≤ 17)
  have hbound := Nat.cast_lt.mp hscaled
  unfold Word.natBound
  omega

end EsotericHost.Decimal
