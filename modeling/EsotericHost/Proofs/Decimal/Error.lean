import EsotericHost.Proofs.Decimal.Spacing

/-!
# Errors of rounding

Rounding to 53 bits takes a number less than one step away from itself, where a step is the factor
`1 / (1 - 2 ^ -53)` (`Nearest.apart`). The steps of factors and divisors add up (`Apart.mul`,
`Apart.div`), and numbers that are fewer than `j` steps apart have nearest doubles at most `j`
positions apart (`Apart.positions`).
-/

namespace EsotericHost.Decimal

/-- Two positive numbers are fewer than `j` steps apart. -/
structure Apart (j : Nat) (v w : ℚ) : Prop where
  pos : 0 < v
  above : (1 - halfUnit) ^ j * w < v
  below : (1 - halfUnit) ^ j * v < w

variable {v w y z : ℚ} {n k i j : Nat}

/-- So many steps do not go down to zero. -/
theorem step_pos (j : Nat) : 0 < (1 - halfUnit) ^ j :=
  pow_pos (sub_pos.mpr halfUnit_lt_one) j

namespace Apart

/-- The second number is positive, too. -/
theorem pos_right (h : Apart j v w) : 0 < w :=
  lt_trans (mul_pos (step_pos j) h.pos) h.below

/-- The steps between the factors add up to those between the products. -/
theorem mul (h : Apart i v y) (h' : Apart j w z) : Apart (i + j) (v * w) (y * z) := by
  have hmul {a b c d : ℚ} (hab : (1 - halfUnit) ^ i * a < b) (hcd : (1 - halfUnit) ^ j * c < d)
      (hc : 0 < c) (hb : 0 < b) : (1 - halfUnit) ^ (i + j) * (a * c) < b * d :=
    calc (1 - halfUnit) ^ (i + j) * (a * c)
        = (1 - halfUnit) ^ i * a * ((1 - halfUnit) ^ j * c) := by ring
      _ < b * d := mul_lt_mul hab hcd.le (mul_pos (step_pos j) hc) hb.le
  exact ⟨mul_pos h.pos h'.pos, hmul h.above h'.above h'.pos_right h.pos,
    hmul h.below h'.below h'.pos h.pos_right⟩

/-- The inverses are as many steps apart. -/
theorem inv (h : Apart j v w) : Apart j v⁻¹ w⁻¹ := by
  have hv := h.pos
  have hw := h.pos_right
  refine ⟨inv_pos.mpr hv, ?_, ?_⟩
  · rw [← div_eq_mul_inv, div_lt_iff₀ hw, inv_mul_eq_div, lt_div_iff₀ hv]
    exact h.below
  · rw [← div_eq_mul_inv, div_lt_iff₀ hv, inv_mul_eq_div, lt_div_iff₀ hw]
    exact h.above

/-- The steps between dividends and divisors add up to those between the quotients. -/
theorem div (h : Apart i v y) (h' : Apart j w z) : Apart (i + j) (v / w) (y / z) := by
  rw [div_eq_mul_inv, div_eq_mul_inv]
  exact h.mul h'.inv

/-- A common divisor does not change how far apart two numbers are. -/
theorem div_right (h : Apart j v w) {c : ℚ} (hc : 0 < c) : Apart j (v / c) (w / c) :=
  ⟨div_pos h.pos hc, by rw [← mul_div_assoc]; exact div_lt_div_of_pos_right h.above hc,
    by rw [← mul_div_assoc]; exact div_lt_div_of_pos_right h.below hc⟩

/-- Numbers that are fewer than `j` steps apart have nearest doubles at most `j` positions apart. -/
theorem positions (h : Apart j v w) (hv : Nearest v n) (hw : Nearest w k) :
    k ≤ n + j ∧ n ≤ k + j :=
  ⟨hv.le_add hw h.above, hw.le_add hv h.below⟩

end Apart

/-- The leading bit of a mantissa is as many units as the error is small. -/
theorem two_mul_halfUnit : 2 * halfUnit * leadingBit = 1 := by
  norm_num [halfUnit, leadingBit]

/-- A unit of the last place is small for a double whose mantissa has its leading bit. -/
theorem unit_le (hn : leadingBit ≤ n) : (2 : ℚ) ^ exponentAt n ≤ 2 * halfUnit * valueAt n := by
  have hlead : (leadingBit : ℚ) ≤ mantissaAt n := by exact_mod_cast leadingBit_le_mantissaAt hn
  have hpos := halfUnit_pos
  calc (2 : ℚ) ^ exponentAt n = 2 * halfUnit * leadingBit * 2 ^ exponentAt n := by
        rw [two_mul_halfUnit, one_mul]
    _ ≤ 2 * halfUnit * mantissaAt n * 2 ^ exponentAt n :=
      mul_le_mul_of_nonneg_right (mul_le_mul_of_nonneg_left hlead (by linarith))
        (two_zpow_pos _).le
    _ = 2 * halfUnit * valueAt n := by rw [valueAt, mul_assoc]

/-- A number is less than a step from the double nearest to it, unless that has fewer bits. -/
theorem Nearest.apart (h : Nearest v n) (hn : leadingBit < n) : Apart 1 v (valueAt n) := by
  have hpos := halfUnit_pos
  have hvalue := valueAt_pos (by omega : 0 < n)
  have hafter := valueAt_succ_sub n
  have hunit := unit_le hn.le
  obtain ⟨p, rfl⟩ : ∃ p, n = p + 1 := ⟨n - 1, by omega⟩
  have hbefore := valueAt_succ_sub p
  have hunit' := unit_le (by omega : leadingBit ≤ p)
  have hless := mul_lt_mul_of_pos_left (valueAt_strictMono (Nat.lt_succ_self p)) hpos
  have habove := h.above
  rw [Nat.add_sub_cancel] at habove
  refine ⟨by linarith [valueAt_nonneg p], by rw [pow_one]; linarith, ?_⟩
  have hfactor : v ≤ (1 + halfUnit) * valueAt (p + 1) := by linarith [h.below]
  calc (1 - halfUnit) ^ 1 * v ≤ (1 - halfUnit) ^ 1 * ((1 + halfUnit) * valueAt (p + 1)) :=
        mul_le_mul_of_nonneg_left hfactor (step_pos 1).le
    _ = valueAt (p + 1) - halfUnit * halfUnit * valueAt (p + 1) := by ring
    _ < valueAt (p + 1) := sub_lt_self _ (mul_pos (mul_pos hpos hpos) hvalue)

end EsotericHost.Decimal
