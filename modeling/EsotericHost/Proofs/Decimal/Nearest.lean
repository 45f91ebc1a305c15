import EsotericHost.Proofs.Decimal.Arithmetic

/-!
# The double nearest to a quotient

`nearestBits` finds the exponent of a quotient from the leading bits of its two parts and rounds
what is left of the quotient to the mantissa. So it gives a position nearest to the quotient, or
infinity (`nearestBits_spec`). A quotient in range has a double that is nearest to it (`At.nearest`).
-/

namespace EsotericHost.Decimal

/-- The quotient is rounded to a nearest integer. -/
theorem abs_divRoundEven_sub_le (num : Nat) {den : Nat} (hden : 0 < den) :
    |(divRoundEven num den : ℚ) - num / den| ≤ 1 / 2 := by
  have hpos : (0 : ℚ) < den := by exact_mod_cast hden
  have hquotient : (num / den : ℚ) = (num / den : Nat) + ((num % den : Nat) : ℚ) / den := by
    rw [div_eq_iff hpos.ne', add_mul, div_mul_cancel₀ _ hpos.ne']
    exact_mod_cast (Nat.div_add_mod' num den).symm
  have hnonneg : 0 ≤ ((num % den : Nat) : ℚ) / den := div_nonneg (Nat.cast_nonneg _) hpos.le
  have hone : ((num % den : Nat) : ℚ) / den ≤ 1 :=
    (div_le_one hpos).mpr (by exact_mod_cast (Nat.mod_lt num hden).le)
  have hhalf (h : 2 * (num % den) ≤ den) : ((num % den : Nat) : ℚ) / den ≤ 1 / 2 := by
    rw [div_le_div_iff₀ hpos two_pos]
    exact_mod_cast (by omega : num % den * 2 ≤ 1 * den)
  have hmore (h : den ≤ 2 * (num % den)) : 1 / 2 ≤ ((num % den : Nat) : ℚ) / den := by
    rw [div_le_div_iff₀ two_pos hpos]
    exact_mod_cast (by omega : 1 * den ≤ num % den * 2)
  rw [hquotient, divRoundEven, abs_le]
  split
  · have := hhalf (by omega)
    constructor <;> linarith
  · split
    · have := hmore (by omega)
      push_cast
      constructor <;> linarith
    · have := hhalf (by omega)
      have := hmore (by omega)
      rcases Nat.mod_two_eq_zero_or_one (num / den) with hm | hm <;> rw [hm] <;> push_cast <;>
        constructor <;> linarith

/-- A quotient with a power of two taken out of it, as `nearestBits` takes it. -/
def scaledBy (num den : Nat) (e : Int) : Nat × Nat :=
  if 0 ≤ e then (num, den <<< e.toNat) else (num <<< (-e).toNat, den)

variable {num den : Nat}

/-- A power of two is taken out of a quotient without making it one by zero. -/
theorem scaledBy_pos (num : Nat) (hden : 0 < den) (e : Int) : 0 < (scaledBy num den e).2 := by
  unfold scaledBy
  split
  · rw [Nat.shiftLeft_eq]
    exact Nat.mul_pos hden (Nat.two_pow_pos _)
  · exact hden

/-- What is left of the quotient. -/
theorem scaledBy_value (num den : Nat) (e : Int) :
    ((scaledBy num den e).1 : ℚ) / (scaledBy num den e).2 = num / den / 2 ^ e := by
  unfold scaledBy
  split
  · rename_i h
    have hpow : (2 : ℚ) ^ e = 2 ^ e.toNat := by rw [← zpow_natCast, Int.toNat_of_nonneg h]
    dsimp only
    rw [Nat.shiftLeft_eq, hpow, div_div]
    push_cast
    rfl
  · rename_i h
    have hpow : (2 : ℚ) ^ e = (2 ^ (-e).toNat)⁻¹ := by
      rw [← zpow_natCast, Int.toNat_of_nonneg (by omega), zpow_neg, inv_inv]
    dsimp only
    rw [Nat.shiftLeft_eq, hpow, div_inv_eq_mul, div_mul_eq_mul_div]
    push_cast
    rfl

/-- A natural number lies between the powers of two that its leading bit tells. -/
theorem log2_bounds {n : Nat} (hn : 0 < n) :
    (2 : ℚ) ^ (n.log2 : Int) ≤ n ∧ (n : ℚ) < 2 ^ ((n.log2 : Int) + 1) := by
  constructor
  · rw [zpow_natCast]
    exact_mod_cast Nat.log2_self_le hn.ne'
  · exact_mod_cast Nat.lt_log2_self

/-- A quotient lies between the powers of two that the leading bits tell. -/
theorem log2_quotient (hnum : 0 < num) (hden : 0 < den) :
    (2 : ℚ) ^ ((num.log2 : Int) - den.log2 - 1) < num / den ∧
      (num / den : ℚ) < 2 ^ ((num.log2 : Int) - den.log2 + 1) := by
  obtain ⟨hlow, hhigh⟩ := log2_bounds hnum
  obtain ⟨hlow', hhigh'⟩ := log2_bounds hden
  have hpos : (0 : ℚ) < den := by exact_mod_cast hden
  constructor
  · rw [lt_div_iff₀ hpos]
    calc (2 : ℚ) ^ ((num.log2 : Int) - den.log2 - 1) * den
        < 2 ^ ((num.log2 : Int) - den.log2 - 1) * 2 ^ ((den.log2 : Int) + 1) :=
          mul_lt_mul_of_pos_left hhigh' (two_zpow_pos _)
      _ = 2 ^ (num.log2 : Int) := by
        rw [← zpow_add₀ two_ne_zero]
        congr 1
        omega
      _ ≤ num := hlow
  · rw [div_lt_iff₀ hpos]
    calc (num : ℚ) < 2 ^ ((num.log2 : Int) + 1) := hhigh
      _ = 2 ^ ((num.log2 : Int) - den.log2 + 1) * 2 ^ (den.log2 : Int) := by
        rw [← zpow_add₀ two_ne_zero]
        congr 1
        omega
      _ ≤ 2 ^ ((num.log2 : Int) - den.log2 + 1) * den :=
        mul_le_mul_of_nonneg_left hlow' (two_zpow_pos _).le

/-- Whether what is left of a quotient is below `2 ^ 53`. -/
theorem scaledBy_lt_iff (num : Nat) (hden : 0 < den) (e : Int) :
    (scaledBy num den e).1 < 2 * leadingBit * (scaledBy num den e).2 ↔
      (num / den / 2 ^ e : ℚ) < 2 * leadingBit := by
  have hpos : (0 : ℚ) < (scaledBy num den e).2 := by exact_mod_cast scaledBy_pos num hden e
  rw [← scaledBy_value, div_lt_iff₀ hpos]
  exact_mod_cast Iff.rfl

/-- The exponent that the leading bits tell, or the next one, leaves 53 bits of a quotient. -/
theorem exists_exponent (hnum : 0 < num) (hden : 0 < den) :
    ∃ e : Int, nearestBits num den =
        min (positionOf (divRoundEven (scaledBy num den (max minExponent e)).1
          (scaledBy num den (max minExponent e)).2) (max minExponent e)) infinityBits ∧
      (leadingBit : ℚ) ≤ num / den / 2 ^ e ∧ (num / den / 2 ^ e : ℚ) < 2 * leadingBit := by
  obtain ⟨hlow, hhigh⟩ := log2_quotient hnum hden
  generalize he : (num.log2 : Int) - den.log2 - 53 = e
  have hunfold (e' : Int) (he' : (if decide ((scaledBy num den e).1 <
      2 * leadingBit * (scaledBy num den e).2) = true then e else e + 1) = e') :
      nearestBits num den =
        min (positionOf (divRoundEven (scaledBy num den (max minExponent e')).1
          (scaledBy num den (max minExponent e')).2) (max minExponent e')) infinityBits := by
    rw [nearestBits, if_neg hnum.ne', he, ← he']
    rfl
  have hpow := two_zpow_pos e
  have hlead : (leadingBit : ℚ) ≤ num / den / 2 ^ e := by
    rw [le_div_iff₀ hpow]
    calc (leadingBit : ℚ) * 2 ^ e = 2 ^ (52 : Int) * 2 ^ e := by norm_num [leadingBit]
      _ = 2 ^ ((num.log2 : Int) - den.log2 - 1) := by
        rw [← zpow_add₀ two_ne_zero]
        congr 1
        omega
      _ ≤ num / den := hlow.le
  by_cases hfits : (scaledBy num den e).1 < 2 * leadingBit * (scaledBy num den e).2
  · exact ⟨e, hunfold e (by simp [hfits]), hlead, (scaledBy_lt_iff num hden e).mp hfits⟩
  · have hover : (2 * leadingBit : ℚ) ≤ num / den / 2 ^ e :=
      not_lt.mp (mt (scaledBy_lt_iff num hden e).mpr hfits)
    have hnext : (num / den / 2 ^ (e + 1) : ℚ) = num / den / 2 ^ e / 2 := by
      rw [zpow_add_one₀ two_ne_zero, ← div_div]
    refine ⟨e + 1, hunfold (e + 1) (by simp [hfits]), by rw [hnext]; linarith, ?_⟩
    rw [div_lt_iff₀ (two_zpow_pos _)]
    calc (num / den : ℚ) < 2 ^ ((num.log2 : Int) - den.log2 + 1) := hhigh
      _ = 2 ^ (53 : Int) * 2 ^ (e + 1) := by
        rw [← zpow_add₀ two_ne_zero]
        congr 1
        omega
      _ = 2 * leadingBit * 2 ^ (e + 1) := by norm_num [leadingBit]

/-- The position nearest to a quotient. -/
theorem nearestBits_spec (hnum : 0 < num) (hden : 0 < den) :
    ∃ p, Nearest (num / den) p ∧ nearestBits num den = min p infinityBits := by
  obtain ⟨e, hbits, hlow, hhigh⟩ := exists_exponent hnum hden
  generalize hmax : max minExponent e = e' at hbits
  have hround := abs_divRoundEven_sub_le (scaledBy num den e').1 (scaledBy_pos num hden e')
  rw [scaledBy_value] at hround
  have hquotient : (0 : ℚ) ≤ num / den := div_nonneg (Nat.cast_nonneg _) (Nat.cast_nonneg _)
  have hnonneg : (0 : ℚ) ≤ num / den / 2 ^ e' := div_nonneg hquotient (two_zpow_pos e').le
  have hlt : (num / den / 2 ^ e' : ℚ) < 2 * leadingBit :=
    lt_of_le_of_lt (div_le_div_of_nonneg_left hquotient (two_zpow_pos e)
      (zpow_le_zpow_right₀ one_le_two (by omega))) hhigh
  have hlead : e' = minExponent ∨ (leadingBit : ℚ) ≤ num / den / 2 ^ e' := by
    rcases max_choice minExponent e with h | h
    · exact .inl (hmax.symm.trans h)
    · exact .inr (by rwa [← hmax, h])
  have hnear := Nearest.of_mantissa hround hnonneg hlt (by omega) hlead
  rw [div_mul_cancel₀ _ (two_zpow_pos e').ne'] at hnear
  exact ⟨_, hnear, hbits⟩

/-- A quotient that the doubles reach is rounded to a double nearest to it. -/
theorem At.nearest (hnum : 0 < num) (hden : 0 < den) {j k : Nat} (hj : 0 < j)
    (hlow : valueAt j ≤ num / den) (hk : k < infinityBits) (hhigh : (num / den : ℚ) ≤ valueAt k) :
    ∃ p, j ≤ p ∧ Nearest (num / den) p ∧ At (nearest false num den) p := by
  obtain ⟨p, hp, hbits⟩ := nearestBits_spec hnum hden
  have hjp : j ≤ p := hp.ge_of_valueAt_le hlow
  have hpk : p ≤ k := hp.le_of_le_valueAt hhigh
  have hfinite : p < infinityBits := by omega
  rw [Nat.min_eq_left hfinite.le] at hbits
  have hword : (UInt64.ofNat p).toNat = signOffset .positive + p := by
    rw [signOffset, Nat.zero_add]
    exact Nat.mod_eq_of_lt (lt_trans hfinite (by decide))
  refine ⟨p, hjp, hp, ?_, by omega, hfinite⟩
  rw [Decimal.nearest, hbits]
  exact (toNat_toBits_ofBits hword hfinite).trans (hword.trans (Nat.zero_add p))

end EsotericHost.Decimal
