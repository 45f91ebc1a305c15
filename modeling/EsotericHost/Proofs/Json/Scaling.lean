import EsotericHost.Json.Reader
import EsotericHost.Proofs.Decimal.Error
import EsotericHost.Proofs.Decimal.Nearest

/-!
# The double that the reader makes of a decimal

The reader of numbers takes the double of the digits and multiplies it by a power of ten, or divides
it by one, or by two where the power would be too large to be a double. Each of these numbers is
rounded, and each rounding is less than one step away. What comes out is at most two doubles away
from the one nearest to the decimal (`exists_scale?`). The division by two powers takes four
roundings: the second power is a double, and for the other three `scaled_apart` has what is left.
-/

namespace EsotericHost.Json

open Decimal

/-- The double has no sign, is finite, and at most two doubles away from a position. -/
structure Within (y : Float) (n : Nat) : Prop where
  finite : y.toBits.toNat < infinityBits
  above : y.toBits.toNat ≤ n + 2
  below : n ≤ y.toBits.toNat + 2

variable {v w : ℚ} {x y : Float} {m n p k : Nat} {e : Int}

/-- A rounded number that is less than two steps away, or less than two of the least double. -/
theorem Within.of_nearest (hlow : n ≤ p + 2) (hhigh : p ≤ n + 2)
    (hbits : y.toBits.toNat = min p infinityBits) (hfinite : n + 2 < infinityBits) : Within y n :=
  ⟨by omega, by omega, by omega⟩

/-! ## The double of the digits -/

/-- The digits that the reader keeps are rounded to nearest. -/
theorem exists_at_ofNat (hm : 0 < m) (hfits : m < Word.natBound) :
    ∃ s, Nearest m s ∧ At (Float.ofNat m) s ∧ oneBits ≤ s := by
  obtain ⟨s, hs, hbits⟩ := toBits_ofNat hm
  have hlow : oneBits ≤ s := hs.ge_of_valueAt_le (by rw [valueAt_oneBits]; exact_mod_cast hm)
  have hhigh : s < infinityBits := by
    have htop : valueAt 0x43F0000000000000 = Word.natBound := by
      norm_num [valueAt, mantissaAt, exponentAt, leadingBit, minExponent, Word.natBound]
    refine lt_of_le_of_lt (hs.le_of_le_valueAt ?_) (by decide : 0x43F0000000000000 < infinityBits)
    rw [htop]
    exact_mod_cast hfits.le
  exact ⟨s, hs, ⟨by omega, by unfold oneBits at hlow; omega, hhigh⟩, hlow⟩

/-! ## The powers of ten -/

/-- The position of the double of the largest power of ten in range. -/
def largestTen : Nat := 0x7FE1CCF385EBC8A0

/-- The double of the largest power of ten has the position that is told. -/
theorem at_largestTen : At (tenPow 308) largestTen :=
  ⟨by decide +kernel, by decide, by decide⟩

/-- The value of that double. -/
theorem valueAt_largestTen : valueAt largestTen = (5010420900022432 * 2 ^ 971 : Nat) := by
  have hmantissa : mantissaAt largestTen = 5010420900022432 := by decide
  have hexponent : exponentAt largestTen = (971 : Nat) := by decide
  rw [valueAt, hmantissa, hexponent, zpow_natCast, Nat.cast_mul, Nat.cast_pow]
  rfl

/-- It is above the power of ten, by a tenth of a step at most. -/
theorem largestTen_bounds : (10 : ℚ) ^ 308 ≤ valueAt largestTen ∧
    valueAt largestTen ≤ (1 + halfUnit / 10) * 10 ^ 308 := by
  have hlow : 10 ^ 308 ≤ 5010420900022432 * 2 ^ 971 := by decide +kernel
  have hhigh :
      5010420900022432 * 2 ^ 971 * (20 * leadingBit) ≤ (20 * leadingBit + 1) * 10 ^ 308 := by
    decide +kernel
  have hunit : 1 + halfUnit / 10 = (20 * leadingBit + 1 : Nat) / (20 * leadingBit : Nat) := by
    norm_num [halfUnit, leadingBit]
  have hpos : (0 : ℚ) < (20 * leadingBit : Nat) := by norm_num [leadingBit]
  rw [valueAt_largestTen, hunit, div_mul_eq_mul_div, le_div_iff₀ hpos]
  exact ⟨by exact_mod_cast hlow, by exact_mod_cast hhigh⟩

/-- The powers of ten that the reader multiplies and divides by are rounded to nearest. -/
theorem exists_at_tenPow (hk : k ≤ 308) :
    ∃ t, Nearest (10 ^ k) t ∧ At (tenPow k) t ∧ oneBits ≤ t := by
  have hvalue : ((10 ^ k : Nat) : ℚ) / (1 : Nat) = 10 ^ k := by
    rw [Nat.cast_one, div_one, Nat.cast_pow]
    rfl
  have hone : (1 : ℚ) ≤ 10 ^ k := one_le_pow₀ (by norm_num)
  have hlargest : (10 : ℚ) ^ k ≤ 10 ^ 308 := pow_le_pow_right₀ (by norm_num) hk
  obtain ⟨t, hlow, ht, hat⟩ := At.nearest (Nat.pow_pos (n := k) (by decide : 0 < 10)) Nat.one_pos
    (j := oneBits) (k := largestTen) (by decide) (by rw [hvalue, valueAt_oneBits]; exact hone)
    (by decide) (by rw [hvalue]; exact le_trans hlargest largestTen_bounds.1)
  exact ⟨t, hvalue ▸ ht, hat, hlow⟩

/-- The powers of ten up to the sixteenth are doubles. -/
theorem tenPow_table : ∀ k < 17, 0 < (tenPow k).toBits.toNat ∧
    (tenPow k).toBits.toNat < infinityBits ∧
    mantissaAt (tenPow k).toBits.toNat * 2 ^ (exponentAt (tenPow k).toBits.toNat).toNat =
      10 ^ k * 2 ^ (-exponentAt (tenPow k).toBits.toNat).toNat := by
  decide +kernel

/-- So their doubles have just their values. -/
theorem exists_at_tenPow_exact (hk : k < 17) : ∃ t, valueAt t = 10 ^ k ∧ At (tenPow k) t := by
  obtain ⟨hpos, hfinite, hvalue⟩ := tenPow_table k hk
  refine ⟨_, ?_, rfl, hpos, hfinite⟩
  rw [valueAt, zpow_eq_div two_ne_zero, ← mul_div_assoc, div_eq_iff (pow_ne_zero _ two_ne_zero)]
  exact_mod_cast hvalue

/-! ## One power of ten -/

/-- A rounded number is no more than a step away if it is not below one. -/
theorem apart_of_one_le (h : Nearest v n) (hn : oneBits ≤ n) : Apart 1 v (valueAt n) :=
  h.apart (lt_of_lt_of_le (by decide) hn)

/-- A decimal with a whole power of ten. -/
theorem within_mul_tenPow (hm : 0 < m) (hfits : m < Word.natBound) (hk : k ≤ 308)
    (hn : Nearest (m * 10 ^ k) n) (hfinite : n + 2 < infinityBits) :
    Within (Float.ofNat m * tenPow k) n := by
  obtain ⟨s, hs, hdigits, hone⟩ := exists_at_ofNat hm hfits
  obtain ⟨t, ht, hpower, hone'⟩ := exists_at_tenPow hk
  obtain ⟨p, hp, hbits⟩ := hdigits.mul hpower
  obtain ⟨hlow, hhigh⟩ :=
    ((apart_of_one_le hs hone).mul (apart_of_one_le ht hone')).positions hn hp
  exact .of_nearest hhigh hlow hbits hfinite

/-- A decimal with an inverse power of ten. -/
theorem within_div_tenPow (hm : 0 < m) (hfits : m < Word.natBound) (hk : k ≤ 308)
    (hn : Nearest (m / 10 ^ k) n) (hfinite : n + 2 < infinityBits) :
    Within (Float.ofNat m / tenPow k) n := by
  obtain ⟨s, hs, hdigits, hone⟩ := exists_at_ofNat hm hfits
  obtain ⟨t, ht, hpower, hone'⟩ := exists_at_tenPow hk
  obtain ⟨p, hp, hbits⟩ := hdigits.div hpower
  obtain ⟨hlow, hhigh⟩ :=
    ((apart_of_one_le hs hone).div (apart_of_one_le ht hone')).positions hn hp
  exact .of_nearest hhigh hlow hbits hfinite

/-! ## Two powers of ten -/

/-- What the first division leaves of the digits is less than two steps away from the quotient. The
bounds are those of the three roundings: of the digits, of the power, and of the quotient. -/
theorem scaled_apart {S a c X M T : ℚ} (hM : M = 5010420900022432 / 4503599627370496)
    (hT : T ≤ M ∧ M ≤ (1 + halfUnit / 10) * T) (hX : 0 ≤ X) (hc : 0 < c) (hS : c ≤ S)
    (ha : |a - S| ≤ halfUnit * c)
    (hround : M * c ≤ a ∧ |X * M - a| ≤ halfUnit * c * M ∨
      a ≤ M * c ∧ |X * M - a| ≤ halfUnit * c * M / 2) :
    (1 - halfUnit) ^ 2 * S < X * T ∧ (1 - halfUnit) ^ 2 * (X * T) < S := by
  have hlow : X * T ≤ X * M := mul_le_mul_of_nonneg_left hT.1 hX
  have hhigh : X * M ≤ (1 + halfUnit / 10) * (X * T) := by
    linarith [mul_le_mul_of_nonneg_left hT.2 hX]
  rw [hM] at hlow hhigh hround
  generalize X * T = Z at *
  generalize X * (5010420900022432 / 4503599627370496) = Y at *
  norm_num [halfUnit, leadingBit] at *
  rw [abs_le] at ha
  obtain ⟨hless, hmore⟩ := ha
  rcases hround with ⟨hquotient, hclose⟩ | ⟨hquotient, hclose⟩
  · rw [abs_le] at hclose
    obtain ⟨hunder, hover⟩ := hclose
    constructor <;> linarith
  · rw [abs_le] at hclose
    obtain ⟨hunder, hover⟩ := hclose
    constructor <;> linarith

variable {s : Nat}

/-- The factor of that double beside its power of two. -/
def largestFactor : ℚ :=
  5010420900022432 / 4503599627370496

/-- The double as its factor and the power of two. -/
theorem valueAt_largestTen_eq : valueAt largestTen = largestFactor * 2 ^ (1023 : Int) := by
  have hsplit : (2 : ℚ) ^ (1023 : Int) = 4503599627370496 * 2 ^ 971 := by
    rw [show (1023 : Int) = 52 + (971 : Nat) from rfl, zpow_add₀ two_ne_zero, zpow_natCast]
    norm_num
  rw [valueAt_largestTen, hsplit, largestFactor, Nat.cast_mul, Nat.cast_pow]
  field_simp
  norm_num

/-- Half of a unit below a power of two. -/
theorem half_zpow (i : Int) : (2 : ℚ) ^ (i - 52) / 2 = halfUnit * 2 ^ i := by
  rw [zpow_sub₀ two_ne_zero]
  norm_num [halfUnit, leadingBit]
  ring

/-- The error of the quotient, multiplied by the divisor. -/
theorem abs_quotient_sub_le (hp : Nearest (valueAt s / valueAt largestTen) p) {i : Int} (hi : 1 ≤ i)
    (hs : valueAt s ≤ largestFactor * 2 ^ (i + 1)) :
    |valueAt p * 2 ^ (1023 : Int) * largestFactor - valueAt s| ≤
      halfUnit * 2 ^ i * largestFactor := by
  have hmin : minExponent = -1074 := rfl
  have hfactor : 0 < largestFactor := by norm_num [largestFactor]
  have hdivisor : 0 < largestFactor * 2 ^ (1023 : Int) := mul_pos hfactor (two_zpow_pos _)
  rw [valueAt_largestTen_eq] at hp
  have hquotient : valueAt s / (largestFactor * 2 ^ (1023 : Int)) ≤ 2 ^ (i - 1075 + 53) := by
    rw [div_le_iff₀ hdivisor, mul_left_comm, ← zpow_add₀ two_ne_zero]
    rwa [show i - 1075 + 53 + 1023 = i + 1 by omega]
  have hclose := hp.abs_sub_le (by omega) hquotient
  calc |valueAt p * 2 ^ (1023 : Int) * largestFactor - valueAt s|
      = |valueAt p - valueAt s / (largestFactor * 2 ^ (1023 : Int))| *
          (largestFactor * 2 ^ (1023 : Int)) := by
        rw [← abs_of_pos hdivisor, ← abs_mul, abs_of_pos hdivisor, sub_mul,
          div_mul_cancel₀ _ hdivisor.ne']
        congr 1
        ring
    _ ≤ 2 ^ (i - 1075) / 2 * (largestFactor * 2 ^ (1023 : Int)) :=
      mul_le_mul_of_nonneg_right hclose hdivisor.le
    _ = 2 ^ (i - 1075) * 2 ^ (1023 : Int) / 2 * largestFactor := by ring
    _ = halfUnit * 2 ^ i * largestFactor := by
      rw [← zpow_add₀ two_ne_zero, show i - 1075 + 1023 = i - 52 by omega, half_zpow]

/-- From four on the first division leaves a quotient less than two steps away. -/
theorem quotient_apart (hm : 4 ≤ m) (hs : Nearest m s)
    (hp : Nearest (valueAt s / valueAt largestTen) p) :
    Apart 2 (m / 10 ^ 308) (valueAt p) := by
  obtain ⟨hlow, hhigh⟩ := log2_bounds (by omega : 0 < m)
  have hlog : 2 ≤ (m.log2 : Int) := by exact_mod_cast (Nat.le_log2 (by omega)).mpr hm
  have hmin : minExponent = -1074 := rfl
  generalize (m.log2 : Int) = l at *
  have hc := two_zpow_pos l
  have hscale := two_zpow_pos 1023
  have hten : (0 : ℚ) < 10 ^ 308 := by positivity
  have ha : |valueAt s - m| ≤ halfUnit * 2 ^ l := by
    rw [← half_zpow]
    exact hs.abs_sub_le (by omega) (by rw [show l - 52 + 53 = l + 1 by omega]; exact hhigh.le)
  -- The quotient has the exponent of the digits or the one below, as its factor is larger or not.
  have hround : largestFactor * 2 ^ l ≤ valueAt s ∧
      |valueAt p * 2 ^ (1023 : Int) * largestFactor - valueAt s| ≤ halfUnit * 2 ^ l * largestFactor ∨
      valueAt s ≤ largestFactor * 2 ^ l ∧
      |valueAt p * 2 ^ (1023 : Int) * largestFactor - valueAt s| ≤
        halfUnit * 2 ^ l * largestFactor / 2 := by
    rcases le_total (largestFactor * 2 ^ l) (valueAt s) with hlarge | hsmall
    · refine .inl ⟨hlarge, abs_quotient_sub_le hp (by omega) ?_⟩
      rw [zpow_add_one₀ two_ne_zero] at hhigh ⊢
      have hless := (abs_le.mp ha).2
      norm_num [halfUnit, leadingBit, largestFactor] at hless ⊢
      linarith
    · refine .inr ⟨hsmall, ?_⟩
      have hclose := abs_quotient_sub_le hp (i := l - 1) (by omega)
        (by rw [show l - 1 + 1 = l by omega]; exact hsmall)
      rw [zpow_sub_one₀ two_ne_zero] at hclose
      linarith
  obtain ⟨hfloor, hceiling⟩ := largestTen_bounds
  rw [valueAt_largestTen_eq] at hfloor hceiling
  have htenth : (10 : ℚ) ^ 308 / 2 ^ (1023 : Int) ≤ largestFactor ∧
      largestFactor ≤ (1 + halfUnit / 10) * (10 ^ 308 / 2 ^ (1023 : Int)) := by
    rw [div_le_iff₀ hscale, ← mul_div_assoc, le_div_iff₀ hscale]
    exact ⟨hfloor, hceiling⟩
  obtain ⟨hbelow, habove⟩ := scaled_apart rfl htenth (mul_nonneg (valueAt_nonneg p) hscale.le)
    hc hlow ha hround
  have hproduct : valueAt p * 2 ^ (1023 : Int) * (10 ^ 308 / 2 ^ (1023 : Int)) =
      valueAt p * 10 ^ 308 := by
    field_simp
  rw [hproduct] at hbelow habove
  refine ⟨div_pos (lt_of_lt_of_le hc hlow) hten, ?_, ?_⟩
  · rw [lt_div_iff₀ hten, mul_assoc]
    exact habove
  · rw [← mul_div_assoc, div_lt_iff₀ hten]
    exact hbelow

/-- Below four it leaves one that is less than the least double away. -/
theorem quotient_near (hm : 0 < m) (hlt : m < 4) (hs : Nearest m s)
    (hp : Nearest (valueAt s / valueAt largestTen) p) :
    |(m : ℚ) / 10 ^ 308 - valueAt p| < 2 ^ minExponent := by
  obtain ⟨i, -, -, hi⟩ := exists_valueAt_eq hm (lt_trans hlt (by decide))
  rw [← hi] at hs
  obtain rfl := hs.eq_of_valueAt
  rw [hi] at hp
  have hten : (0 : ℚ) < 10 ^ 308 := by positivity
  obtain ⟨hfloor, hceiling⟩ := largestTen_bounds
  have hlargest := lt_of_lt_of_le hten hfloor
  have hdigits : (0 : ℚ) < m := by exact_mod_cast hm
  have hleast := two_zpow_pos minExponent
  -- The quotient is a fraction of the power of two above the numbers without a leading bit.
  have hquotient : (m : ℚ) / valueAt largestTen ≤ 2 ^ (minExponent + 53) := by
    have hthree : (m : ℚ) ≤ 3 := by exact_mod_cast Nat.le_of_lt_succ hlt
    rw [div_le_iff₀ hlargest, valueAt_largestTen_eq, mul_left_comm, ← zpow_add₀ two_ne_zero]
    norm_num [minExponent, largestFactor]
    linarith
  have hclose := hp.abs_sub_le le_rfl hquotient
  have hratio : (m : ℚ) / valueAt largestTen ≤ m / 10 ^ 308 ∧
      (m : ℚ) / 10 ^ 308 ≤ (1 + halfUnit / 10) * (m / valueAt largestTen) := by
    constructor
    · exact div_le_div_of_nonneg_left hdigits.le hten hfloor
    · rw [← mul_div_assoc, div_le_div_iff₀ hten hlargest]
      calc (m : ℚ) * valueAt largestTen ≤ m * ((1 + halfUnit / 10) * 10 ^ 308) :=
            mul_le_mul_of_nonneg_left hceiling hdigits.le
        _ = (1 + halfUnit / 10) * m * 10 ^ 308 := by rw [mul_left_comm, mul_assoc]
  have htenth : halfUnit / 10 * (m / valueAt largestTen) ≤ 2 ^ minExponent / 10 := by
    rw [zpow_add₀ two_ne_zero] at hquotient
    norm_num [halfUnit, leadingBit] at hquotient ⊢
    linarith
  generalize (m : ℚ) / 10 ^ 308 = v at *
  rw [abs_le] at hclose
  rw [abs_lt]
  constructor <;> linarith

/-- After a further division by a double the positions are at most two apart. -/
theorem quotient_positions (hm : 0 < m) (hs : Nearest m s)
    (hp : Nearest (valueAt s / valueAt largestTen) p) {c : ℚ} (hc : 1 ≤ c)
    (hn : Nearest (m / 10 ^ 308 / c) n) (hk : Nearest (valueAt p / c) k) :
    k ≤ n + 2 ∧ n ≤ k + 2 := by
  have hpos : 0 < c := lt_of_lt_of_le one_pos hc
  rcases Nat.lt_or_ge m 4 with hlt | hge
  · have hless : |(m : ℚ) / 10 ^ 308 / c - valueAt p / c| < 2 ^ minExponent := by
      rw [← sub_div, abs_div, abs_of_pos hpos, div_lt_iff₀ hpos]
      exact lt_of_lt_of_le (quotient_near hm hlt hs hp)
        (le_mul_of_one_le_right (two_zpow_pos _).le hc)
    obtain ⟨hunder, hover⟩ := abs_lt.mp hless
    have hleast := two_zpow_pos minExponent
    generalize (m : ℚ) / 10 ^ 308 / c = v at *
    exact ⟨hn.le_add_of_lt_add hk (by push_cast; linarith),
      hk.le_add_of_lt_add hn (by push_cast; linarith)⟩
  · exact ((quotient_apart hge hs hp).div_right hpos).positions hn hk

/-- A decimal that takes two divisions. -/
theorem within_div_div_tenPow (hm : 0 < m) (hfits : m < Word.natBound) (hk : k < 17)
    (hn : Nearest (m / 10 ^ 308 / 10 ^ k) n) (hfinite : n + 2 < infinityBits) :
    Within (Float.ofNat m / tenPow 308 / tenPow k) n := by
  obtain ⟨s, hs, hdigits, hone⟩ := exists_at_ofNat hm hfits
  obtain ⟨p, hp, hbits⟩ := hdigits.div at_largestTen
  obtain ⟨t, ht, hpower⟩ := exists_at_tenPow_exact hk
  have hdigit : 1 ≤ valueAt s := by
    rw [← valueAt_oneBits]
    exact valueAt_strictMono.monotone hone
  have hlow : 0 < p := by
    refine hp.ge_of_valueAt_le (le_trans ?_ (div_le_div_of_nonneg_right hdigit (valueAt_nonneg _)))
    rw [valueAt_largestTen_eq, le_div_iff₀ (mul_pos (by norm_num [largestFactor]) (two_zpow_pos _)),
      valueAt, show exponentAt 1 = -1074 from rfl, mul_mul_mul_comm, mul_right_comm, mul_assoc,
      ← zpow_add₀ two_ne_zero]
    norm_num [largestFactor, mantissaAt, leadingBit]
  have hhigh : p < infinityBits := by
    have hlargest : 1 ≤ valueAt largestTen := by
      rw [← valueAt_oneBits]
      exact valueAt_strictMono.monotone (by decide)
    exact lt_of_le_of_lt (hp.le_of_le_valueAt (div_le_self (valueAt_nonneg s) hlargest))
      hdigits.finite
  have hquotient : At (Float.ofNat m / tenPow 308) p :=
    ⟨by rw [hbits, Nat.min_eq_left hhigh.le], hlow, hhigh⟩
  obtain ⟨r, hr, hbits'⟩ := hquotient.div hpower
  rw [ht] at hr
  obtain ⟨hle, hge⟩ := quotient_positions hm hs hp (one_le_pow₀ (by norm_num)) hn hr
  exact .of_nearest hge hle hbits' hfinite

/-! ## The reader's way -/

/-- The reader multiplies once, and refuses only what is infinite. -/
theorem scale?_up (hk : k ≤ 308) (h : Within (Float.ofNat m * tenPow k) n) :
    scale? 40 (Float.ofNat m) k = some (Float.ofNat m * tenPow k) := by
  rw [scale?, if_pos (by omega), if_pos (Int.natCast_nonneg k), Int.natAbs_natCast, finite?,
    isInf_of_toNat_lt h.finite]
  rfl

/-- No decimal of a finite double has a power of ten beyond the doubles. -/
theorem exponent_le (hm : 0 < m) (hn : Nearest (m * 10 ^ e) n) (hfinite : n < infinityBits) :
    e ≤ 308 := by
  by_contra hlarge
  have hpow : (2 : ℚ) ^ 1024 ≤ 10 ^ 309 := by
    exact_mod_cast (by decide +kernel : 2 ^ 1024 ≤ 10 ^ 309)
  have hdigit : (1 : ℚ) ≤ m := by exact_mod_cast hm
  have hbeyond : valueAt infinityBits ≤ m * 10 ^ e :=
    calc valueAt infinityBits = 2 ^ 1024 := valueAt_infinityBits
      _ ≤ 10 ^ 309 := hpow
      _ = 10 ^ (309 : Int) := rfl
      _ ≤ 10 ^ e := zpow_le_zpow_right₀ (by norm_num) (by omega)
      _ ≤ m * 10 ^ e := le_mul_of_one_le_left (by positivity) hdigit
  have := hn.ge_of_valueAt_le hbeyond
  omega

/-- The reader makes a double of each decimal in range, at most two doubles away from a nearest. -/
theorem exists_scale? (hm : 0 < m) (hfits : m < Word.natBound) (he : -324 ≤ e)
    (hn : Nearest (m * 10 ^ e) n) (hfinite : n + 2 < infinityBits) :
    ∃ y, scale? 40 (Float.ofNat m) e = some y ∧ Within y n := by
  rcases lt_or_ge e 0 with hdown | hup
  · obtain ⟨k, rfl⟩ : ∃ k : Nat, e = -k := ⟨(-e).toNat, by omega⟩
    rw [zpow_neg, zpow_natCast, ← div_eq_mul_inv] at hn
    by_cases hk : k ≤ 308
    · refine ⟨_, ?_, within_div_tenPow hm hfits hk hn hfinite⟩
      rw [scale?, if_pos (by omega), if_neg (by omega), Int.natAbs_neg, Int.natAbs_natCast]
    · obtain ⟨i, rfl⟩ : ∃ i, k = 308 + i := ⟨k - 308, by omega⟩
      obtain ⟨s, -, hdigits, -⟩ := exists_at_ofNat hm hfits
      rw [pow_add, ← div_div] at hn
      refine ⟨_, ?_, within_div_div_tenPow hm hfits (by omega : i < 17) hn hfinite⟩
      rw [scale?, if_neg (by omega), hdigits.beq_zero, if_neg (by decide), if_neg (by omega),
        show (-((308 + i : Nat) : Int) + 308) = -i by omega, scale?, if_pos (by omega),
        if_neg (by omega), Int.natAbs_neg, Int.natAbs_natCast]
  · have hlarge := exponent_le hm hn (by omega)
    obtain ⟨k, rfl⟩ : ∃ k : Nat, e = k := ⟨e.toNat, by omega⟩
    rw [zpow_natCast] at hn
    have hwithin := within_mul_tenPow hm hfits (by omega) hn hfinite
    exact ⟨_, scale?_up (by omega) hwithin, hwithin⟩

end EsotericHost.Json
