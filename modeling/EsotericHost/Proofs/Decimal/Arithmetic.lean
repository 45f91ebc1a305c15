import EsotericHost.Proofs.Decimal.Spacing
import Mathlib

/-!
# The arithmetic of doubles rounds to nearest

The library computes with the mantissas and exponents that the bits of a double stand for, and
rounds what comes out to 53 bits. So a product and a quotient of doubles without a sign, and the
double of a natural number, are at a position nearest to the exact result, or infinity if that
position is beyond the doubles (`toBits_mul`, `toBits_div`, `toBits_ofNat`).
-/

namespace EsotericHost.Decimal

open Float.Model Float.Model.UnpackedFloat

/-! ## Rounding a mantissa -/

/-- The number `q` is in the place relative to the mantissa `m` that the accuracy tells. -/
def Accurate (q : ℚ) (m : Nat) : Accuracy → Prop
  | .exact => q = m
  | .inexact .lt => m < q ∧ q < m + 1 / 2
  | .inexact .eq => q = m + 1 / 2
  | .inexact .gt => m + 1 / 2 < q ∧ q < m + 1

variable {q : ℚ} {m : Nat} {a : Accuracy}

/-- The number lies between the mantissa and the next one. -/
theorem Accurate.bounds (h : Accurate q m a) : m ≤ q ∧ q < m + 1 := by
  unfold Accurate at h
  split at h
  · subst h
    exact ⟨le_rfl, by linarith⟩
  · exact ⟨h.1.le, by linarith [h.2]⟩
  · subst h
    exact ⟨by linarith, by linarith⟩
  · exact ⟨by linarith [h.1], h.2⟩

/-- The mantissa is rounded to a nearest integer. -/
theorem Accurate.abs_roundToNearestEven_sub_le (h : Accurate q m a) :
    |(a.roundToNearestEven m : ℚ) - q| ≤ 1 / 2 := by
  unfold Accurate at h
  rw [abs_le]
  split at h <;> simp only [Accuracy.roundToNearestEven] <;> push_cast
  · constructor <;> linarith
  · constructor <;> linarith
  · rcases Nat.mod_two_eq_zero_or_one m with hm | hm <;> rw [hm] <;> push_cast <;>
      constructor <;> linarith
  · constructor <;> linarith

/-- A bit shifted out of the mantissa goes to the accuracy. -/
theorem Accurate.shiftRightOne {em : ExtendedMantissa} (h : Accurate q em.mantissa em.accuracy) :
    Accurate (q / 2) em.shiftRightOne.mantissa em.shiftRightOne.accuracy := by
  obtain ⟨m, round, sticky⟩ := em
  have hsplit : ((m / 2 : Nat) : ℚ) * 2 + (m % 2 : Nat) = m := by
    exact_mod_cast Nat.div_add_mod' m 2
  rcases Nat.mod_two_eq_zero_or_one m with hm | hm <;> cases round <;> cases sticky <;>
    simp only [Accurate, ExtendedMantissa.accuracy, ExtendedMantissa.shiftRightOne, hm,
      Bool.or_false, Bool.or_true, Bool.or_self, bne_self_eq_false, Nat.cast_zero, Nat.cast_one,
      show (1 != 0) = true from rfl] at h hsplit ⊢ <;>
    first
      | linarith
      | constructor <;> linarith

/-- The same for as many bits. -/
theorem Accurate.shiftRight {em : ExtendedMantissa} (h : Accurate q em.mantissa em.accuracy)
    (k : Nat) : Accurate (q / 2 ^ k) (em >>> k).mantissa (em >>> k).accuracy := by
  induction k with
  | zero => simpa [HShiftRight.hShiftRight, Nat.repeat] using h
  | succ k ih =>
    rw [pow_succ, ← div_div]
    exact ih.shiftRightOne

/-- A mantissa and its accuracy are kept in the bits behind it. -/
theorem Accurate.extended (h : Accurate q m a) :
    Accurate q (ExtendedMantissa.ofMantissaAndAccuracy m a).mantissa
      (ExtendedMantissa.ofMantissaAndAccuracy m a).accuracy := by
  unfold ExtendedMantissa.ofMantissaAndAccuracy
  split <;> exact h

/-- The remainder of a division tells the accuracy of the quotient. -/
theorem accurate_accuracyOfFraction (num : Nat) {den : Nat} (hden : 0 < den) :
    Accurate (num / den : ℚ) (num / den) (accuracyOfFraction (num % den) den) := by
  have hpos : (0 : ℚ) < den := by exact_mod_cast hden
  have hlt : ((num % den : Nat) : ℚ) < den := by exact_mod_cast Nat.mod_lt num hden
  have hsplit : (num / den : ℚ) = (num / den : Nat) + ((num % den : Nat) : ℚ) / den := by
    rw [div_eq_iff hpos.ne', add_mul, div_mul_cancel₀ _ hpos.ne']
    exact_mod_cast (Nat.div_add_mod' num den).symm
  rw [hsplit, accuracyOfFraction]
  split
  · rename_i hzero
    simp [Accurate, hzero]
  · rename_i hne
    have hfrac : (0 : ℚ) < ((num % den : Nat) : ℚ) / den :=
      div_pos (by exact_mod_cast Nat.pos_of_ne_zero hne) hpos
    have hone : ((num % den : Nat) : ℚ) / den < 1 := (div_lt_one hpos).mpr hlt
    cases hcompare : compare (2 * (num % den)) den with
    | lt =>
      have h2 : 2 * ((num % den : Nat) : ℚ) < den := by
        exact_mod_cast Nat.compare_eq_lt.mp hcompare
      have : ((num % den : Nat) : ℚ) / den < 1 / 2 := by
        rw [div_lt_div_iff₀ hpos two_pos]
        linarith
      exact ⟨by linarith, by linarith⟩
    | eq =>
      have h2 : 2 * ((num % den : Nat) : ℚ) = den := by
        exact_mod_cast Nat.compare_eq_eq.mp hcompare
      have : ((num % den : Nat) : ℚ) / den = 1 / 2 := by
        rw [div_eq_div_iff hpos.ne' two_ne_zero]
        linarith
      simp [Accurate, this]
    | gt =>
      have h2 : (den : ℚ) < 2 * ((num % den : Nat) : ℚ) := by
        exact_mod_cast Nat.compare_eq_gt.mp hcompare
      have : 1 / 2 < ((num % den : Nat) : ℚ) / den := by
        rw [div_lt_div_iff₀ two_pos hpos]
        linarith
      exact ⟨by linarith, by linarith⟩

/-! ## Bits -/

/-- What the sign adds to the bits. -/
def signOffset : Sign → Nat
  | .negative => signBit
  | .positive => 0

/-- The bits of the parts of a double. -/
theorem toNat_packComponents (s : Sign) (e : BitVec 11) (m : BitVec 52) :
    (packComponents Format.binary64 s e m).toNat =
      signOffset s + e.toNat * leadingBit + m.toNat := by
  have he := e.isLt
  have hm := m.isLt
  unfold packComponents
  rw [BitVec.toNat_append, BitVec.toNat_append, ← Nat.shiftLeft_add_eq_or_of_lt he,
    ← Nat.shiftLeft_add_eq_or_of_lt hm, Nat.shiftLeft_eq, Nat.shiftLeft_eq]
  cases s with
  | negative =>
    simp [signOffset, Sign.toBitVec, signBit, leadingBit]
    omega
  | positive => simp [signOffset, Sign.toBitVec, leadingBit]

variable {s : Sign} {e : Int} {n : Nat}

/-- A finite double is packed to the position of its mantissa and exponent, or to infinity if that
is beyond the doubles. -/
theorem toNat_pack_finite (hm : 0 < m) (hlt : m < 2 * leadingBit) (he : minExponent ≤ e)
    (hlead : e = minExponent ∨ leadingBit ≤ m) :
    (UnpackedFloat.pack Format.binary64 (.finite s m e hm)).toNat =
      signOffset s + min (positionOf m e) infinityBits := by
  have hlog : m.log2 + 1 = 53 ↔ leadingBit ≤ m := by
    have hfits : m.log2 < 53 := (Nat.log2_lt hm.ne').mpr hlt
    have hleads : 52 ≤ m.log2 ↔ leadingBit ≤ m := Nat.le_log2 hm.ne'
    omega
  have hbiased : (e + (Format.binary64.exponentBias : Nat) + (52 : Nat)).toNat
      = (e - minExponent).toNat + 1 := by
    change (e + (1023 : Nat) + (52 : Nat)).toNat = _
    unfold minExponent at *
    omega
  have h53 : Format.binary64.mantissaBits = 53 := rfl
  simp only [UnpackedFloat.pack, hbiased, h53, hlog]
  unfold positionOf infinityBits
  generalize ha : (e - minExponent).toNat = a
  split
  · -- The exponent is beyond the largest one.
    rename_i hbig
    have hlead : leadingBit ≤ m := hlead.resolve_left (by omega)
    have hbeyond : 2047 * leadingBit ≤ a * leadingBit + m := by
      have := Nat.mul_le_mul_right leadingBit (by omega : 2046 ≤ a)
      omega
    rw [packedInfinity, toNat_packComponents, Nat.min_eq_right hbeyond, Nat.add_assoc]
    rfl
  · rename_i hsmall
    have hinside : a * leadingBit + m ≤ 2047 * leadingBit := by
      have := Nat.mul_le_mul_right leadingBit (by omega : a ≤ 2045)
      omega
    rw [Nat.min_eq_left hinside]
    split
    · rename_i hleads
      have hexponent : (BitVec.ofNat 11 (a + 1)).toNat = a + 1 :=
        Nat.mod_eq_of_lt (by omega)
      have hmantissa : (BitVec.ofNat 52 m).toNat = m - leadingBit := by
        change m % leadingBit = m - leadingBit
        rw [Nat.mod_eq_sub_mod hleads, Nat.mod_eq_of_lt (by omega)]
      rw [toNat_packComponents, hexponent, hmantissa, Nat.succ_mul]
      omega
    · rename_i hsub
      have hmantissa : (BitVec.ofNat 52 m).toNat = m := Nat.mod_eq_of_lt (Nat.lt_of_not_le hsub)
      have hzero : a = 0 := by
        have := hlead.resolve_right hsub
        omega
      rw [toNat_packComponents, hmantissa, hzero]
      simp

/-- The double at a position has the mantissa and the exponent of that position. -/
theorem unpack_of_toNat {b : BitVec 64} (hb : b.toNat = signOffset s + n) (hpos : 0 < n)
    (hn : n < infinityBits) :
    ∃ hm, UnpackedFloat.unpack Format.binary64 b = .finite s (mantissaAt n) (exponentAt n) hm := by
  have hexponent : (BitVec.ofNat 11 (n / leadingBit)).toNat = n / leadingBit := by
    have : n / leadingBit < 2047 := Nat.div_lt_of_lt_mul (by rwa [Nat.mul_comm])
    exact Nat.mod_eq_of_lt (by omega)
  have hmantissa : (BitVec.ofNat 52 (n % leadingBit)).toNat = n % leadingBit :=
    Nat.mod_eq_of_lt (Nat.mod_lt _ (by decide))
  obtain rfl : b = packComponents Format.binary64 s (BitVec.ofNat 11 (n / leadingBit))
      (BitVec.ofNat 52 (n % leadingBit)) := by
    apply BitVec.eq_of_toNat_eq
    have hsplit := Nat.div_add_mod' n leadingBit
    rw [toNat_packComponents, hexponent, hmantissa, hb]
    omega
  unfold UnpackedFloat.unpack
  simp only [unpackMantissa_packComponents, unpackExponent_packComponents,
    unpackSign_packComponents, Sign.ofBitVec_toBitVec]
  have hless : n / leadingBit < 2047 := Nat.div_lt_of_lt_mul (by rwa [Nat.mul_comm])
  have hinf : BitVec.ofNat 11 (n / leadingBit) ≠ -1#11 := by
    intro h
    have h := hexponent.symm.trans (congrArg BitVec.toNat h)
    change n / leadingBit = 2047 at h
    omega
  rw [if_neg hinf]
  unfold mantissaAt exponentAt
  rcases Nat.lt_or_ge n leadingBit with hsub | hnormal
  · have hzero : BitVec.ofNat 11 (n / leadingBit) = 0#11 := by rw [Nat.div_eq_of_lt hsub]
    have hne : BitVec.ofNat 52 (n % leadingBit) ≠ 0#52 := by
      intro h
      have h := hmantissa.symm.trans (congrArg BitVec.toNat h)
      rw [Nat.mod_eq_of_lt hsub] at h
      exact hpos.ne' h
    rw [if_pos hzero, dif_neg hne, if_pos hsub, if_pos hsub]
    refine ⟨hpos, ?_⟩
    rw [UnpackedFloat.finite.injEq, hexponent, hmantissa, Nat.mod_eq_of_lt hsub,
      Nat.div_eq_of_lt hsub]
    exact ⟨rfl, rfl, rfl⟩
  · have hdiv : 0 < n / leadingBit := Nat.div_pos hnormal (by decide)
    have hne : BitVec.ofNat 11 (n / leadingBit) ≠ 0#11 := by
      intro h
      have h := hexponent.symm.trans (congrArg BitVec.toNat h)
      exact hdiv.ne' h
    rw [if_neg hne, if_neg (Nat.not_lt.mpr hnormal), if_neg (Nat.not_lt.mpr hnormal)]
    refine ⟨Nat.add_pos_right _ (by decide), ?_⟩
    rw [UnpackedFloat.finite.injEq, hexponent, BitVec.toNat_append,
      ← Nat.shiftLeft_add_eq_or_of_lt (BitVec.isLt _), hmantissa]
    refine ⟨rfl, Nat.add_comm _ _, ?_⟩
    change ((n / leadingBit : Nat) : Int) - ((1023 : Nat) + (52 : Nat)) = _
    unfold minExponent
    omega

/-! ## Rounding a double -/

/-- The exponent that a mantissa is shifted to. -/
theorem targetExponent_eq (m : Nat) (e : Int) :
    Format.binary64.targetExponent (totalExponent m e) = max (m.log2 + e - 52) minExponent := by
  have hmin : Format.binary64.minExponent = minExponent := rfl
  rw [Format.targetExponent, hmin, totalExponent]
  change max ((m.log2 : Int) + 1 + e - 53) minExponent = _
  congr 1
  omega

/-- A mantissa that has been rounded up to `2 ^ 53` loses a bit, and no other one does. The position
stays the same. -/
theorem shiftToTargetExponent_rounded {r : Nat} (hr : r ≤ 2 * leadingBit) (he : minExponent ≤ e)
    (hlead : e = minExponent ∨ leadingBit ≤ r) :
    ∃ m e', shiftToTargetExponent Format.binary64 r e .exact = (⟨m, false, false⟩, e') ∧
      m < 2 * leadingBit ∧ minExponent ≤ e' ∧ (e' = minExponent ∨ leadingBit ≤ m) ∧
      positionOf m e' = positionOf r e := by
  rcases Nat.lt_or_eq_of_le hr with hlt | rfl
  · have hlog : r.log2 < 53 := by
      rcases Nat.eq_zero_or_pos r with rfl | hpos
      · decide
      · exact (Nat.log2_lt hpos.ne').mpr hlt
    refine ⟨r, e, ?_, hlt, he, hlead, rfl⟩
    rw [shiftToTargetExponent, targetExponent_eq, shiftToExponent,
      show (max ((r.log2 : Int) + e - 52) minExponent - e).toNat = 0 by omega]
    simp [HShiftRight.hShiftRight, Nat.repeat, ExtendedMantissa.ofMantissaAndAccuracy]
  · have hlog : (2 * leadingBit).log2 = 53 := by decide +kernel
    refine ⟨leadingBit, e + 1, ?_, by decide, by omega, .inr le_rfl, ?_⟩
    · rw [shiftToTargetExponent, targetExponent_eq, shiftToExponent, hlog,
        show (max (((53 : Nat) : Int) + e - 52) minExponent - e).toNat = 1 by omega]
      rfl
    · unfold positionOf
      rw [show (e + 1 - minExponent).toNat = (e - minExponent).toNat + 1 by omega]
      ring

/-- A number given by a mantissa and its accuracy is rounded to a position nearest to it, or to
infinity. The mantissa must have bits enough, as rounding only drops bits. -/
theorem toNat_pack_roundWithAccuracy (h : Accurate q m a)
    (hbits : 52 ≤ m.log2 ∨ e ≤ minExponent) :
    ∃ n, Nearest (q * 2 ^ e) n ∧
      (UnpackedFloat.pack Format.binary64
        (roundWithAccuracy Format.binary64 s m e a)).toNat = signOffset s + min n infinityBits := by
  obtain ⟨k, hk⟩ : ∃ k : Nat, max (m.log2 + e - 52) minExponent = e + k :=
    ⟨(max (m.log2 + e - 52) minExponent - e).toNat, by omega⟩
  have hfirst : shiftToTargetExponent Format.binary64 m e a =
      (ExtendedMantissa.ofMantissaAndAccuracy m a >>> k, e + k) := by
    rw [shiftToTargetExponent, targetExponent_eq, shiftToExponent, hk, add_sub_cancel_left,
      Int.toNat_natCast]
  have hem := h.extended.shiftRight k
  generalize ExtendedMantissa.ofMantissaAndAccuracy m a >>> k = em at hfirst hem
  obtain ⟨hmq, hqm⟩ := h.bounds
  have hpow : (0 : ℚ) < 2 ^ k := pow_pos two_pos k
  have hround : |(em.roundedMantissa : ℚ) - q / 2 ^ k| ≤ 1 / 2 := hem.abs_roundToNearestEven_sub_le
  have hnonneg : 0 ≤ q / 2 ^ k := div_nonneg (le_trans (Nat.cast_nonneg m) hmq) hpow.le
  have hlt : q / 2 ^ k < (2 * leadingBit : Nat) := by
    rw [div_lt_iff₀ hpow]
    have hm : m + 1 ≤ 2 * leadingBit * 2 ^ k :=
      calc m + 1 ≤ 2 ^ (m.log2 + 1) := Nat.lt_log2_self
        _ ≤ 2 ^ (53 + k) := Nat.pow_le_pow_right two_pos (by omega)
        _ = 2 * leadingBit * 2 ^ k := by rw [Nat.pow_add]; rfl
    exact lt_of_lt_of_le hqm (by exact_mod_cast hm)
  have hlead : e + k = minExponent ∨ (leadingBit : ℚ) ≤ q / 2 ^ k := by
    by_cases hmin : e + k = minExponent
    · exact .inl hmin
    · right
      have hlog : m.log2 = 52 + k := by omega
      have hm : leadingBit * 2 ^ k ≤ m :=
        calc leadingBit * 2 ^ k = 2 ^ m.log2 := by rw [hlog, Nat.pow_add]; rfl
          _ ≤ m := Nat.log2_self_le (by rintro rfl; rw [Nat.log2_zero] at hlog; omega)
      rw [le_div_iff₀ hpow]
      exact le_trans (by exact_mod_cast hm) hmq
  have hmin : minExponent ≤ e + k := by omega
  have hnear := Nearest.of_mantissa hround hnonneg (by exact_mod_cast hlt) hmin hlead
  have hvalue : q / 2 ^ k * 2 ^ (e + (k : Int)) = q * 2 ^ e := by
    rw [zpow_add₀ two_ne_zero, zpow_natCast]
    field_simp
  rw [hvalue] at hnear
  refine ⟨_, hnear, ?_⟩
  obtain ⟨m', e', hsecond, hm', he', hlead', hposition⟩ := shiftToTargetExponent_rounded
    (le_of_rounded hround hlt) hmin (hlead.imp_right (ge_of_rounded hround))
  rw [← hposition, roundWithAccuracy, hfirst]
  simp only [hsecond]
  split
  · rename_i hzero
    obtain rfl : e' = minExponent := hlead'.resolve_right (by rw [hzero]; decide)
    rw [hzero]
    cases s <;> rfl
  · exact toNat_pack_finite _ hm' he' hlead'

/-! ## The operations -/

/-- The double without a sign at a position, neither zero nor infinity. -/
structure At (x : Float) (n : Nat) : Prop where
  bits : x.toBits.toNat = n
  pos : 0 < n
  finite : n < infinityBits

variable {x y : Float} {k : Nat}

/-- The library takes a double apart into the mantissa and the exponent of its position. -/
theorem At.unpack (hx : At x n) :
    ∃ hm, x.toModel.unpack = .finite .positive (mantissaAt n) (exponentAt n) hm :=
  unpack_of_toNat (by rw [signOffset, Nat.zero_add]; exact hx.bits) hx.pos hx.finite

/-- The mantissa of a product has bits enough to be rounded. -/
theorem mul_bits {i j : Nat} (hi : 0 < mantissaAt i) (hj : 0 < mantissaAt j) :
    52 ≤ (mantissaAt i * mantissaAt j).log2 ∨ exponentAt i + exponentAt j ≤ minExponent := by
  have hlog (h : leadingBit ≤ mantissaAt i * mantissaAt j) :
      52 ≤ (mantissaAt i * mantissaAt j).log2 :=
    (Nat.le_log2 (Nat.mul_pos hi hj).ne').mpr h
  rcases exponentAt_eq_or i with hmin | hlead
  · rcases exponentAt_eq_or j with hmin' | hlead
    · exact .inr (by rw [hmin, hmin']; decide)
    · exact .inl (hlog (le_trans hlead (Nat.le_mul_of_pos_left _ hi)))
  · exact .inl (hlog (le_trans hlead (Nat.le_mul_of_pos_right _ hj)))

/-- A product is rounded to nearest. -/
theorem At.mul (hx : At x n) (hy : At y k) :
    ∃ p, Nearest (valueAt n * valueAt k) p ∧ (x * y).toBits.toNat = min p infinityBits := by
  obtain ⟨hm, hunpack⟩ := hx.unpack
  obtain ⟨hm', hunpack'⟩ := hy.unpack
  have hexact : Accurate ((mantissaAt n * mantissaAt k : Nat) : ℚ) (mantissaAt n * mantissaAt k)
      .exact := rfl
  obtain ⟨p, hp, hbits⟩ := toNat_pack_roundWithAccuracy (s := .positive) hexact (mul_bits hm hm')
  refine ⟨p, ?_, ?_⟩
  · have hvalue : valueAt n * valueAt k =
        (mantissaAt n * mantissaAt k : Nat) * 2 ^ (exponentAt n + exponentAt k) := by
      rw [valueAt, valueAt, zpow_add₀ two_ne_zero]
      push_cast
      ring
    rwa [hvalue]
  · change (UnpackedFloat.pack _ (UnpackedFloat.mul _ x.toModel.unpack y.toModel.unpack)).toNat = _
    rw [hunpack, hunpack']
    rwa [signOffset, Nat.zero_add] at hbits

/-- The exponent that a dividend is shifted to leaves the quotient bits enough to be rounded. -/
theorem div_bits {m m' : Nat} {e e' t : Int} {k : Nat} (hm : 0 < m) (hm' : 0 < m')
    (ht : t ≤ max (m.log2 + e - (m'.log2 + e') - 53) minExponent) (hk : t + k = e - e') :
    52 ≤ (m <<< k / m').log2 ∨ t ≤ minExponent := by
  by_cases hmin : t ≤ minExponent
  · exact .inr hmin
  · left
    have hquotient : leadingBit ≤ m <<< k / m' := by
      rw [Nat.le_div_iff_mul_le hm', Nat.shiftLeft_eq]
      calc leadingBit * m' ≤ leadingBit * 2 ^ (m'.log2 + 1) :=
            Nat.mul_le_mul_left _ Nat.lt_log2_self.le
        _ = 2 ^ (52 + (m'.log2 + 1)) := by rw [Nat.pow_add 2 52]; rfl
        _ ≤ 2 ^ (m.log2 + k) := Nat.pow_le_pow_right two_pos (by omega)
        _ ≤ m * 2 ^ k := by
          rw [Nat.pow_add]
          exact Nat.mul_le_mul_right _ (Nat.log2_self_le hm.ne')
    have hpos : 0 < m <<< k / m' := lt_of_lt_of_le (by decide) hquotient
    exact (Nat.le_log2 hpos.ne').mpr hquotient

/-- A quotient is rounded to nearest. -/
theorem At.div (hx : At x n) (hy : At y k) :
    ∃ p, Nearest (valueAt n / valueAt k) p ∧ (x / y).toBits.toNat = min p infinityBits := by
  obtain ⟨hm, hunpack⟩ := hx.unpack
  obtain ⟨hm', hunpack'⟩ := hy.unpack
  obtain ⟨t, hbound, i, hi, hcore⟩ : ∃ t,
      t ≤ max ((mantissaAt n).log2 + exponentAt n - ((mantissaAt k).log2 + exponentAt k) - 53)
        minExponent ∧ ∃ i : Nat, t + i = exponentAt n - exponentAt k ∧
      divCore Format.binary64 (mantissaAt n) (exponentAt n) (mantissaAt k) (exponentAt k) =
        (mantissaAt n <<< i / mantissaAt k, t,
          accuracyOfFraction (mantissaAt n <<< i % mantissaAt k) (mantissaAt k)) := by
    refine ⟨_, ?_, _, ?_, rfl⟩
    · refine le_trans (min_le_right _ _) (le_of_eq ?_)
      change max (((mantissaAt n).log2 : Int) + 1 + exponentAt n -
        ((mantissaAt k).log2 + 1 + exponentAt k) - 53) minExponent = _
      congr 1
      omega
    · omega
  obtain ⟨p, hp, hbits⟩ := toNat_pack_roundWithAccuracy (s := .positive)
    (accurate_accuracyOfFraction (mantissaAt n <<< i) hm') (div_bits hm hm' hbound hi)
  refine ⟨p, ?_, ?_⟩
  · have hvalue : valueAt n / valueAt k =
        ((mantissaAt n <<< i : Nat) / (mantissaAt k : ℚ)) * 2 ^ t := by
      rw [valueAt, valueAt, mul_div_mul_comm, ← zpow_sub₀ two_ne_zero, ← hi, add_comm,
        zpow_add₀ two_ne_zero, zpow_natCast, Nat.shiftLeft_eq]
      push_cast
      ring
    rwa [hvalue]
  · change (UnpackedFloat.pack _ (UnpackedFloat.div _ x.toModel.unpack y.toModel.unpack)).toNat = _
    rw [hunpack, hunpack']
    simp only [UnpackedFloat.div, hcore]
    rwa [signOffset, Nat.zero_add] at hbits

/-- A number of 53 bits is shifted to its leading bit. -/
theorem shifted_bounds {m k : Nat} (hm : 0 < m) (hk : m.log2 + k = 52) :
    leadingBit ≤ m * 2 ^ k ∧ m * 2 ^ k < 2 * leadingBit := by
  constructor
  · calc leadingBit = 2 ^ m.log2 * 2 ^ k := by rw [← Nat.pow_add, hk]; rfl
      _ ≤ m * 2 ^ k := Nat.mul_le_mul_right _ (Nat.log2_self_le hm.ne')
  · calc m * 2 ^ k < 2 ^ (m.log2 + 1) * 2 ^ k :=
          Nat.mul_lt_mul_of_pos_right Nat.lt_log2_self (Nat.two_pow_pos k)
      _ = 2 * leadingBit := by rw [← Nat.pow_add, Nat.add_right_comm, hk]; rfl

/-- The natural numbers of 53 bits are values of doubles. -/
theorem exists_valueAt_eq {m : Nat} (hm : 0 < m) (hlt : m < 2 * leadingBit) :
    ∃ n, 0 < n ∧ n < infinityBits ∧ valueAt n = m := by
  have hlog : m.log2 < 53 := (Nat.log2_lt hm.ne').mpr hlt
  obtain ⟨k, hk⟩ : ∃ k : Nat, m.log2 + k = 52 := ⟨52 - m.log2, by omega⟩
  obtain ⟨hlow, hhigh⟩ := shifted_bounds hm hk
  have hmin : minExponent = -1074 := rfl
  refine ⟨positionOf (m * 2 ^ k) (-k), Nat.add_pos_right _ (lt_of_lt_of_le (by decide) hlow), ?_,
    ?_⟩
  · have hbound := Nat.mul_le_mul_right leadingBit
      (by omega : (-(k : Int) - minExponent).toNat ≤ 1074)
    unfold positionOf infinityBits
    omega
  · rw [valueAt_positionOf hhigh.le (by omega) (.inr hlow), zpow_neg, zpow_natCast]
    push_cast
    field_simp

/-- The double of a natural number of 53 bits is nearest to it. -/
theorem toBits_toFloat {m : Nat} (hm : 0 < m) (hlt : m < 2 * leadingBit) :
    ∃ p, Nearest m p ∧ m.toUInt64.toFloat.toBits.toNat = min p infinityBits := by
  have hvalue : m.toUInt64.toNat = m := Nat.mod_eq_of_lt (lt_trans hlt (by decide))
  have hlog : m.log2 < 53 := (Nat.log2_lt hm.ne').mpr hlt
  have hmin : minExponent = -1074 := rfl
  obtain ⟨k, hk⟩ : ∃ k : Nat, m.log2 + k = 52 := ⟨52 - m.log2, by omega⟩
  have hround : UnpackedFloat.ofUInt64 Format.binary64 m.toUInt64 =
      roundWithAccuracy Format.binary64 .positive (m <<< k) (0 - k) .exact := by
    rw [UnpackedFloat.ofUInt64, hvalue, UnpackedFloat.ofNat, UnpackedFloat.ofInt,
      UnpackedFloat.normalize, Int.compare_eq_gt.mpr (by omega)]
    simp only [Int.toNat_natCast, UnpackedFloat.round, decreaseExponent, targetExponent_eq,
      show (0 - max ((m.log2 : Int) + 0 - 52) minExponent).toNat = k by omega]
  have hexact : Accurate ((m <<< k : Nat) : ℚ) (m <<< k) .exact := rfl
  obtain ⟨hlow, -⟩ := shifted_bounds hm hk
  rw [← Nat.shiftLeft_eq] at hlow
  obtain ⟨p, hp, hbits⟩ := toNat_pack_roundWithAccuracy (s := .positive) (e := 0 - k) hexact
    (.inl ((Nat.le_log2 (lt_of_lt_of_le (by decide) hlow).ne').mpr hlow))
  refine ⟨p, ?_, ?_⟩
  · have hsame : ((m <<< k : Nat) : ℚ) * 2 ^ (0 - (k : Int)) = m := by
      rw [zero_sub, zpow_neg, zpow_natCast, Nat.shiftLeft_eq]
      push_cast
      field_simp
    rwa [hsame] at hp
  · change (UnpackedFloat.pack _ (UnpackedFloat.ofUInt64 _ m.toUInt64)).toNat = _
    rw [hround]
    rwa [signOffset, Nat.zero_add] at hbits

/-- The double of a natural number is nearest to it. -/
theorem toBits_ofNat {m : Nat} (hm : 0 < m) :
    ∃ p, Nearest m p ∧ (Float.ofNat m).toBits.toNat = min p infinityBits := by
  change ∃ p, Nearest m p ∧ (Float.ofScientific m false 0).toBits.toNat = _
  unfold Float.ofScientific
  split
  · -- The small numbers are multiplied by the double of one.
    rename_i hsmall
    obtain ⟨n, hpos, hfinite, hn⟩ := exists_valueAt_eq hm hsmall.1
    obtain ⟨p, hp, hbits⟩ := toBits_toFloat hm hsmall.1
    rw [← hn] at hp
    obtain rfl := hp.eq_of_valueAt
    rw [Nat.min_eq_left hfinite.le] at hbits
    have hone : At (Float.ofBits 0x3FF0000000000000) oneBits :=
      ⟨by decide +kernel, by decide, by decide⟩
    obtain ⟨k, hk, hproduct⟩ := At.mul ⟨hbits, hpos, hfinite⟩ hone
    rw [valueAt_oneBits, mul_one, hn] at hk
    exact ⟨k, hk, hproduct⟩
  · rename_i hsmall
    have hlarge : 2 * leadingBit ≤ m := by
      by_contra h
      exact hsmall ⟨Nat.lt_of_not_le h, by decide⟩
    have hscaled : UnpackedFloat.ofScientific Format.binary64 m 0 =
        roundWithAccuracy Format.binary64 .positive (m <<< 53) (-53) .exact := by
      have hbits : Format.binary64.mantissaBits = 53 := rfl
      have hbound : (2 : Int) ^ Format.binary64.exponentBits = 2048 := rfl
      rw [UnpackedFloat.ofScientific, dif_neg hm.ne', if_neg (by decide), if_neg (by omega),
        if_pos le_rfl]
      simp only [hbits, UnpackedFloat.mul, Int.toNat_zero, pow_zero, Nat.mul_one]
      rfl
    have hexact : Accurate ((m <<< 53 : Nat) : ℚ) (m <<< 53) .exact := rfl
    have hlow : leadingBit ≤ m <<< 53 := by
      rw [Nat.shiftLeft_eq]
      have hle := Nat.le_mul_of_pos_right m (Nat.two_pow_pos 53)
      omega
    obtain ⟨p, hp, hbits⟩ := toNat_pack_roundWithAccuracy (s := .positive) (e := -53) hexact
      (.inl ((Nat.le_log2 (lt_of_lt_of_le (by decide) hlow).ne').mpr hlow))
    refine ⟨p, ?_, ?_⟩
    · have hsame : ((m <<< 53 : Nat) : ℚ) * 2 ^ (-53 : Int) = m := by
        rw [Nat.shiftLeft_eq, Nat.cast_mul, mul_assoc]
        norm_num
      rwa [hsame] at hp
    · change (UnpackedFloat.pack _ (UnpackedFloat.ofScientific _ m 0)).toNat = _
      rw [hscaled]
      rwa [signOffset, Nat.zero_add] at hbits

/-! ## Signs and infinity -/

/-- A double of the row is not zero. -/
theorem At.beq_zero (h : At x n) : (x == 0.0) = false := by
  obtain ⟨hm, hunpack⟩ := h.unpack
  change (x.toModel.unpack.beq _) = false
  rw [hunpack]
  rfl

/-- The library takes a zero apart into its sign. -/
theorem unpack_zero {b : BitVec 64} (hb : b.toNat = signOffset s) :
    UnpackedFloat.unpack Format.binary64 b = .zero s := by
  obtain rfl : b = packedZero Format.binary64 s :=
    BitVec.eq_of_toNat_eq (hb.trans (by cases s <;> rfl))
  exact unpack_packedZero

/-- Bits before those of infinity, whatever their sign, are those of a number. -/
theorem valid_of_toNat {b : BitVec 64} (hb : b.toNat = signOffset s + n) (hn : n < infinityBits) :
    Format.binary64.Valid b := by
  refine ⟨fun hexponent => absurd (congrArg BitVec.toNat hexponent) ?_⟩
  rw [unpackExponent_def, BitVec.extractLsb'_toNat, Nat.shiftRight_eq_div_pow, hb]
  change (signOffset s + n) / 2 ^ 52 % 2 ^ 11 ≠ 2047
  unfold infinityBits leadingBit at hn
  cases s <;> simp only [signOffset, signBit] <;> omega

/-- The double of bits that are those of no infinity has these bits. -/
theorem toNat_toBits_ofBits {b : UInt64} (hb : b.toNat = signOffset s + n)
    (hn : n < infinityBits) : (Float.ofBits b).toBits.toNat = b.toNat :=
  congrArg BitVec.toNat (pack_unpack_of_valid (valid_of_toNat hb hn))

/-- A double whose bits are below those of infinity is not infinite. -/
theorem isInf_of_toNat_lt (h : x.toBits.toNat < infinityBits) : x.isInf = false := by
  change (UnpackedFloat.unpack Format.binary64 x.toBits.toBitVec).isInf = false
  have hb : x.toBits.toBitVec.toNat = signOffset .positive + x.toBits.toNat := (Nat.zero_add _).symm
  rcases Nat.eq_zero_or_pos x.toBits.toNat with hzero | hpos
  · rw [hzero, Nat.add_zero] at hb
    rw [unpack_zero hb]
    rfl
  · obtain ⟨hm, hunpack⟩ := unpack_of_toNat hb hpos h
    rw [hunpack]
    rfl

/-- The opposite of a double has the other sign. -/
theorem toNat_toBits_neg (h : x.toBits.toNat < infinityBits) :
    (-x).toBits.toNat = signBit + x.toBits.toNat := by
  change (UnpackedFloat.pack _
    (UnpackedFloat.unpack Format.binary64 x.toBits.toBitVec).neg).toNat = _
  have hb : x.toBits.toBitVec.toNat = signOffset .positive + x.toBits.toNat := (Nat.zero_add _).symm
  rcases Nat.eq_zero_or_pos x.toBits.toNat with hzero | hpos
  · rw [hzero, Nat.add_zero] at hb
    rw [unpack_zero hb, hzero]
    rfl
  · obtain ⟨hm, hunpack⟩ := unpack_of_toNat hb hpos h
    rw [hunpack, UnpackedFloat.neg, toNat_pack_finite hm (mantissaAt_lt _)
      (minExponent_le_exponentAt _) (exponentAt_eq_or _), positionOf_mantissaAt,
      Nat.min_eq_left h.le]
    rfl

end EsotericHost.Decimal
