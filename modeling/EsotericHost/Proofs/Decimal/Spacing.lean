import EsotericHost.Decimal.Binary64
import Mathlib.Algebra.Order.Field.Power
import Mathlib.Algebra.Order.Field.Rat
import Mathlib.Tactic.FieldSimp
import Mathlib.Tactic.Linarith
import Mathlib.Tactic.NormNum.Pow
import Mathlib.Tactic.Positivity
import Mathlib.Tactic.Ring

/-!
# The row of doubles

The bits of the doubles without a sign count them in the order of their values, so a natural number
is the position of a double (`valueAt`). Each is `mantissaAt n * 2 ^ exponentAt n`, and the next one
is a unit of the mantissa further (`valueAt_succ`). A mantissa stays below `2 ^ 53`, so a double is
larger than the one before by a factor of at least `1 / (1 - 2 ^ -53)` (`valueAt_le_shrunk`): who
moves a number by less than `n` such factors moves its nearest double by `n` positions at most
(`Nearest.le_add`).
-/

namespace EsotericHost.Decimal

/-- The mantissa of the double at a position. -/
def mantissaAt (n : Nat) : Nat :=
  if n < leadingBit then n else n % leadingBit + leadingBit

/-- The exponent of the double at a position. -/
def exponentAt (n : Nat) : Int :=
  if n < leadingBit then minExponent else (n / leadingBit : Nat) + minExponent - 1

/-- The value of the double at a position. The first position beyond the doubles has the value that
a double there would have. -/
def valueAt (n : Nat) : ℚ :=
  mantissaAt n * 2 ^ exponentAt n

/-- The position of infinity, the first one that is not of a finite double. -/
def infinityBits : Nat :=
  2047 * leadingBit

variable {n k : Nat}

/-- A mantissa has 53 bits. -/
theorem mantissaAt_lt (n : Nat) : mantissaAt n < 2 * leadingBit := by
  have := Nat.mod_lt n (by decide : 0 < leadingBit)
  unfold mantissaAt
  split <;> omega

/-- Only zero has no mantissa. -/
theorem mantissaAt_pos (h : 0 < n) : 0 < mantissaAt n := by
  have : 0 < leadingBit := by decide
  unfold mantissaAt
  split <;> omega

/-- No exponent is below the smallest one. -/
theorem minExponent_le_exponentAt (n : Nat) : minExponent ≤ exponentAt n := by
  unfold exponentAt
  split
  · exact le_rfl
  · have : 0 < n / leadingBit := Nat.div_pos (by omega) (by decide)
    omega

/-- A mantissa has its leading bit unless the exponent is the smallest. -/
theorem leadingBit_le_mantissaAt (h : leadingBit ≤ n) : leadingBit ≤ mantissaAt n := by
  unfold mantissaAt
  split <;> omega

/-- The position of a mantissa and an exponent. A mantissa that is rounded up to `2 ^ 53` is one of
the next exponent, which is where the sum puts it. -/
def positionOf (m : Nat) (e : Int) : Nat :=
  (e - minExponent).toNat * leadingBit + m

/-- What is at the position of a mantissa and an exponent. -/
theorem valueAt_positionOf {m : Nat} {e : Int} (hm : m ≤ 2 * leadingBit)
    (he : minExponent ≤ e) (hlead : e = minExponent ∨ leadingBit ≤ m) :
    valueAt (positionOf m e) = m * 2 ^ e := by
  have hpos : 0 < leadingBit := by decide
  obtain ⟨a, rfl⟩ : ∃ a : Nat, e = minExponent + a := ⟨(e - minExponent).toNat, by omega⟩
  have ha : (minExponent + (a : Int) - minExponent).toNat = a := by omega
  unfold valueAt positionOf mantissaAt exponentAt
  rw [ha]
  rcases Nat.lt_or_ge m leadingBit with hlt | hge
  · obtain rfl : a = 0 := by omega
    simp [hlt]
  · obtain ⟨r, rfl⟩ := Nat.exists_eq_add_of_le hge
    have hdiv : (a * leadingBit + (leadingBit + r)) / leadingBit = a + 1 + r / leadingBit := by
      rw [show a * leadingBit + (leadingBit + r) = r + leadingBit * (a + 1) by ring,
        Nat.add_mul_div_left _ _ hpos, Nat.add_comm]
    have hmod : (a * leadingBit + (leadingBit + r)) % leadingBit = r % leadingBit := by
      rw [show a * leadingBit + (leadingBit + r) = r + leadingBit * (a + 1) by ring,
        Nat.add_mul_mod_self_left]
    rw [if_neg (by omega), if_neg (by omega), hdiv, hmod]
    rcases Nat.lt_or_ge r leadingBit with hr | hr
    · rw [Nat.mod_eq_of_lt hr, Nat.div_eq_of_lt hr]
      congr 2
      · omega
      · omega
    · -- The mantissa has been rounded up to the next power of two.
      obtain rfl : r = leadingBit := by omega
      rw [Nat.mod_self, Nat.div_self hpos,
        show ((a + 1 + 1 : Nat) : Int) + minExponent - 1 = minExponent + a + 1 by omega,
        zpow_add_one₀ two_ne_zero]
      push_cast
      ring

/-- A double is at the position of its mantissa and its exponent. -/
theorem positionOf_mantissaAt (n : Nat) : positionOf (mantissaAt n) (exponentAt n) = n := by
  unfold positionOf mantissaAt exponentAt
  split
  · simp
  · rename_i h
    have hdiv : 0 < n / leadingBit := Nat.div_pos (by omega) (by decide)
    obtain ⟨b, hb⟩ : ∃ b, n / leadingBit = b + 1 := ⟨n / leadingBit - 1, by omega⟩
    have hsplit := Nat.div_add_mod' n leadingBit
    rw [hb, Nat.succ_mul] at hsplit
    rw [hb, show (((b + 1 : Nat) : Int) + minExponent - 1 - minExponent).toNat = b by omega]
    omega

/-- The exponent is the smallest or the mantissa has its leading bit. -/
theorem exponentAt_eq_or (n : Nat) : exponentAt n = minExponent ∨ leadingBit ≤ mantissaAt n := by
  rcases Nat.lt_or_ge n leadingBit with h | h
  · exact .inl (if_pos h)
  · exact .inr (leadingBit_le_mantissaAt h)

/-- The next double is a unit of the mantissa further. -/
theorem valueAt_succ (n : Nat) : valueAt (n + 1) = (mantissaAt n + 1) * 2 ^ exponentAt n := by
  have hnext : positionOf (mantissaAt n + 1) (exponentAt n) = n + 1 := by
    rw [positionOf, ← Nat.add_assoc]
    exact congrArg (· + 1) (positionOf_mantissaAt n)
  rw [← hnext, valueAt_positionOf (mantissaAt_lt n) (minExponent_le_exponentAt n)
    ((exponentAt_eq_or n).imp_right Nat.le_succ_of_le)]
  push_cast
  rfl

/-- What lies between a double and the next one. -/
theorem valueAt_succ_sub (n : Nat) : valueAt (n + 1) - valueAt n = 2 ^ exponentAt n := by
  rw [valueAt_succ, valueAt]
  ring

/-- A power as the quotient of two whole ones. -/
theorem zpow_eq_div {a : ℚ} (ha : a ≠ 0) (k : Int) : a ^ k = a ^ k.toNat / a ^ (-k).toNat := by
  rw [← zpow_natCast, ← zpow_natCast, ← zpow_sub₀ ha]
  congr 1
  omega

/-- The powers of two are positive. -/
theorem two_zpow_pos (e : Int) : (0 : ℚ) < 2 ^ e :=
  zpow_pos two_pos e

/-- The values grow along the row. -/
theorem valueAt_strictMono : StrictMono valueAt :=
  strictMono_nat_of_lt_succ fun n => by
    have hgap := valueAt_succ_sub n
    have hpos := two_zpow_pos (exponentAt n)
    linarith

/-- The first double is zero. -/
@[simp]
theorem valueAt_zero : valueAt 0 = 0 := by
  simp [valueAt, mantissaAt, leadingBit]

/-- No double has a negative value. -/
theorem valueAt_nonneg (n : Nat) : 0 ≤ valueAt n := by
  rw [← valueAt_zero]
  exact valueAt_strictMono.monotone (Nat.zero_le n)

/-- Every other double has a positive value. -/
theorem valueAt_pos (h : 0 < n) : 0 < valueAt n := by
  rw [← valueAt_zero]
  exact valueAt_strictMono h

/-- The position of the double of one. -/
def oneBits : Nat := 0x3FF0000000000000

/-- The double of one has the value one. -/
theorem valueAt_oneBits : valueAt oneBits = 1 := by
  norm_num [valueAt, mantissaAt, exponentAt, oneBits, leadingBit, minExponent]

/-- The value where the bits of infinity would stand in the row. -/
theorem valueAt_infinityBits : valueAt infinityBits = 2 ^ (1024 : Int) := by
  have hleading : ((leadingBit : Nat) : ℚ) = 2 ^ (52 : Int) := by norm_num [leadingBit]
  have hmantissa : mantissaAt infinityBits = leadingBit := by decide
  have hexponent : exponentAt infinityBits = 972 := by decide
  rw [valueAt, hmantissa, hexponent, hleading, ← zpow_add₀ two_ne_zero]
  rfl

/-- All finite doubles are below the first power of two that is out of range. -/
theorem valueAt_lt (h : n < infinityBits) : valueAt n < 2 ^ (1024 : Int) := by
  rw [← valueAt_infinityBits]
  exact valueAt_strictMono h

/-! ## The spacing -/

/-- Half of what a unit of the last place is to the number: `2 ^ -53`. -/
def halfUnit : ℚ :=
  1 / (2 * leadingBit)

/-- A double is larger than the one before by a factor of `1 / (1 - 2 ^ -53)` at least. -/
theorem valueAt_le_shrunk (n : Nat) : valueAt n ≤ (1 - halfUnit) * valueAt (n + 1) := by
  have hm : (mantissaAt n : ℚ) + 1 ≤ 2 * leadingBit := by exact_mod_cast mantissaAt_lt n
  have hshrunk : (mantissaAt n : ℚ) ≤ (1 - halfUnit) * (mantissaAt n + 1) := by
    norm_num [halfUnit, leadingBit] at hm ⊢
    linarith
  calc valueAt n = mantissaAt n * 2 ^ exponentAt n := rfl
    _ ≤ (1 - halfUnit) * (mantissaAt n + 1) * 2 ^ exponentAt n :=
      mul_le_mul_of_nonneg_right hshrunk (two_zpow_pos _).le
    _ = (1 - halfUnit) * valueAt (n + 1) := by rw [valueAt_succ, mul_assoc]

/-- A step is some way. -/
theorem halfUnit_pos : 0 < halfUnit := by
  norm_num [halfUnit, leadingBit]

/-- A step does not go down to zero. -/
theorem halfUnit_lt_one : halfUnit < 1 := by
  norm_num [halfUnit, leadingBit]

/-- The same for as many doubles further. -/
theorem valueAt_le_shrunk_pow (n k : Nat) :
    valueAt n ≤ (1 - halfUnit) ^ k * valueAt (n + k) := by
  induction k with
  | zero => simp
  | succ k ih =>
    have hshrunk : (0 : ℚ) ≤ (1 - halfUnit) ^ k := pow_nonneg (sub_nonneg.mpr halfUnit_lt_one.le) k
    calc valueAt n ≤ (1 - halfUnit) ^ k * valueAt (n + k) := ih
      _ ≤ (1 - halfUnit) ^ k * ((1 - halfUnit) * valueAt (n + k + 1)) :=
        mul_le_mul_of_nonneg_left (valueAt_le_shrunk _) hshrunk
      _ = (1 - halfUnit) ^ (k + 1) * valueAt (n + (k + 1)) := by rw [pow_succ, mul_assoc]; rfl

/-- Between two doubles lies the least double at least as often as there are steps. -/
theorem valueAt_add_le (n k : Nat) : valueAt n + k * 2 ^ minExponent ≤ valueAt (n + k) := by
  induction k with
  | zero => simp
  | succ k ih =>
    have hgap := valueAt_succ_sub (n + k)
    have hleast : (2 : ℚ) ^ minExponent ≤ 2 ^ exponentAt (n + k) :=
      zpow_le_zpow_right₀ one_le_two (minExponent_le_exponentAt _)
    rw [← Nat.add_assoc]
    push_cast
    linarith

/-- No positive double is below the least one. -/
theorem least_le_valueAt (h : 0 < n) : 2 ^ minExponent ≤ valueAt n := by
  have hleast := valueAt_add_le 0 n
  have hone : (1 : ℚ) ≤ n := by exact_mod_cast h
  have hscaled := mul_le_mul_of_nonneg_right hone (two_zpow_pos minExponent).le
  rw [Nat.zero_add, valueAt_zero] at hleast
  linarith

/-! ## The nearest double -/

/-- A nearest integer is not above a bound that the number is below. -/
theorem le_of_rounded {q : ℚ} {r c : Nat} (hr : |(r : ℚ) - q| ≤ 1 / 2) (hq : q < c) : r ≤ c := by
  by_contra h
  have : (c : ℚ) + 1 ≤ r := by exact_mod_cast Nat.lt_of_not_le h
  linarith [(abs_le.mp hr).2]

/-- A nearest integer is not below a bound that the number is not below. -/
theorem ge_of_rounded {q : ℚ} {r c : Nat} (hr : |(r : ℚ) - q| ≤ 1 / 2) (hq : c ≤ q) : c ≤ r := by
  by_contra h
  have : (r : ℚ) + 1 ≤ c := by exact_mod_cast Nat.lt_of_not_le h
  linarith [(abs_le.mp hr).1]

/-- No double is nearer to the number: it lies between the middles to the doubles at either side. -/
structure Nearest (v : ℚ) (n : Nat) : Prop where
  above : valueAt (n - 1) + valueAt n ≤ 2 * v
  below : 2 * v ≤ valueAt n + valueAt (n + 1)

namespace Nearest

variable {v w : ℚ}

/-- A number that is no larger than a value of the row has its double no further along. -/
theorem le_of_le_valueAt (h : Nearest v n) (hv : v ≤ valueAt k) : n ≤ k := by
  by_contra hk
  have hstep : valueAt (n - 1) < valueAt n := valueAt_strictMono (by omega)
  have hle : valueAt k ≤ valueAt (n - 1) := valueAt_strictMono.monotone (by omega)
  have := h.above
  linarith

/-- A number that is no smaller than a value of the row has its double no further back. -/
theorem ge_of_valueAt_le (h : Nearest v n) (hv : valueAt k ≤ v) : k ≤ n := by
  by_contra hk
  have hstep : valueAt n < valueAt (n + 1) := valueAt_strictMono (Nat.lt_succ_self n)
  have hle : valueAt (n + 1) ≤ valueAt k := valueAt_strictMono.monotone (by omega)
  have := h.below
  linarith

/-- A value of the row is nearest to itself only. -/
theorem eq_of_valueAt (h : Nearest (valueAt k) n) : n = k :=
  Nat.le_antisymm (h.le_of_le_valueAt le_rfl) (h.ge_of_valueAt_le le_rfl)

/-- Two positions are as far apart as the middles next to them allow. -/
theorem middle_le (hv : Nearest v n) (hw : Nearest w k) {j : Nat} (hk : n + j < k) :
    valueAt (n + j) + valueAt (n + 1 + j) ≤ 2 * w ∧ 2 * v ≤ valueAt n + valueAt (n + 1) := by
  have hbefore : valueAt (n + j) ≤ valueAt (k - 1) := valueAt_strictMono.monotone (by omega)
  have hat : valueAt (n + 1 + j) ≤ valueAt k := valueAt_strictMono.monotone (by omega)
  exact ⟨by linarith [hw.above], hv.below⟩

/-- A number that is less than `j` factors of `1 / (1 - 2 ^ -53)` above another one has its nearest
double at most `j` positions behind. -/
theorem le_add (hv : Nearest v n) (hw : Nearest w k) {j : Nat}
    (h : (1 - halfUnit) ^ j * w < v) : k ≤ n + j := by
  by_contra hk
  obtain ⟨hfar, hnear⟩ := middle_le hv hw (Nat.lt_of_not_le hk)
  have hshrunk : (0 : ℚ) ≤ (1 - halfUnit) ^ j := pow_nonneg (sub_nonneg.mpr halfUnit_lt_one.le) j
  have hscaled := mul_le_mul_of_nonneg_left hfar hshrunk
  have hfirst := valueAt_le_shrunk_pow n j
  have hsecond := valueAt_le_shrunk_pow (n + 1) j
  linarith

/-- A number that is less than `j` of the least double above another one has its nearest double at
most `j` positions behind. -/
theorem le_add_of_lt_add (hv : Nearest v n) (hw : Nearest w k) {j : Nat}
    (h : w < v + j * 2 ^ minExponent) : k ≤ n + j := by
  by_contra hk
  obtain ⟨hfar, hnear⟩ := middle_le hv hw (Nat.lt_of_not_le hk)
  have hfirst := valueAt_add_le n j
  have hsecond := valueAt_add_le (n + 1) j
  linarith

/-- A mantissa rounded to a nearest integer gives a nearest double. The mantissa has its leading bit
unless the exponent is the smallest. -/
theorem of_mantissa {q : ℚ} {r : Nat} {e : Int} (hr : |(r : ℚ) - q| ≤ 1 / 2)
    (hnonneg : 0 ≤ q) (hq : q < 2 * leadingBit) (he : minExponent ≤ e)
    (hlead : e = minExponent ∨ leadingBit ≤ q) : Nearest (q * 2 ^ e) (positionOf r e) := by
  obtain ⟨hlow, hhigh⟩ := abs_le.mp hr
  have hpow := two_zpow_pos e
  have hle : r ≤ 2 * leadingBit := le_of_rounded hr (by exact_mod_cast hq)
  have hleading : e = minExponent ∨ leadingBit ≤ r := hlead.imp_right (ge_of_rounded hr)
  have hvalue := valueAt_positionOf hle he hleading
  constructor
  · -- Below the leading bit of an exponent the doubles are closer, but so is the number.
    have hbefore : valueAt (positionOf r e - 1) ≤ (2 * q - r) * 2 ^ e := by
      rcases Nat.eq_zero_or_pos r with rfl | hpos
      · have hzero : positionOf 0 e - 1 = 0 := by
          simp [positionOf, hleading.resolve_right (by decide)]
        rw [hzero, valueAt_zero]
        exact mul_nonneg (by simpa using hnonneg) hpow.le
      · by_cases hless : e = minExponent ∨ leadingBit ≤ r - 1
        · have hpred : positionOf r e - 1 = positionOf (r - 1) e := by
            unfold positionOf
            omega
          rw [hpred, valueAt_positionOf (by omega) he hless]
          refine mul_le_mul_of_nonneg_right ?_ hpow.le
          rw [Nat.cast_sub hpos, Nat.cast_one]
          linarith
        · rw [not_or] at hless
          have hq := hlead.resolve_left hless.1
          obtain rfl : r = leadingBit := by
            have := hleading.resolve_left hless.1
            omega
          calc valueAt (positionOf leadingBit e - 1) ≤ valueAt (positionOf leadingBit e) :=
                valueAt_strictMono.monotone (Nat.sub_le _ _)
            _ = leadingBit * 2 ^ e := hvalue
            _ ≤ (2 * q - leadingBit) * 2 ^ e :=
              mul_le_mul_of_nonneg_right (by linarith) hpow.le
    rw [hvalue]
    linarith
  · have hafter : (2 * q - r) * 2 ^ e ≤ valueAt (positionOf r e + 1) := by
      rcases Nat.lt_or_ge r (2 * leadingBit) with hlt | hge
      · have hsucc : positionOf r e + 1 = positionOf (r + 1) e := by
          unfold positionOf
          omega
        rw [hsucc, valueAt_positionOf hlt he (hleading.imp_right Nat.le_succ_of_le)]
        refine mul_le_mul_of_nonneg_right ?_ hpow.le
        push_cast
        linarith
      · have hmax : (r : ℚ) = 2 * leadingBit := by exact_mod_cast Nat.le_antisymm hle hge
        calc (2 * q - r) * 2 ^ e ≤ r * 2 ^ e :=
              mul_le_mul_of_nonneg_right (by linarith) hpow.le
          _ = valueAt (positionOf r e) := hvalue.symm
          _ ≤ valueAt (positionOf r e + 1) := valueAt_strictMono.monotone (Nat.le_succ _)
    rw [hvalue]
    linarith

/-- The error is no more than half of the spacing below a power of two that the number is not
above. -/
theorem abs_sub_le (h : Nearest v n) {e : Int} (he : minExponent ≤ e) (hv : v ≤ 2 ^ (e + 53)) :
    |valueAt n - v| ≤ 2 ^ e / 2 := by
  have hpow : (2 : ℚ) ^ (e + 53) = valueAt (positionOf (2 * leadingBit) e) := by
    have htop : ((2 * leadingBit : Nat) : ℚ) = 2 ^ (53 : Int) := by norm_num [leadingBit]
    rw [valueAt_positionOf le_rfl he (.inr (by decide)), htop, ← zpow_add₀ two_ne_zero, add_comm]
  have hgap {i : Nat} (hi : i < positionOf (2 * leadingBit) e) :
      valueAt (i + 1) - valueAt i ≤ 2 ^ e := by
    rw [valueAt_succ_sub]
    refine zpow_le_zpow_right₀ one_le_two ?_
    unfold positionOf at hi
    unfold exponentAt
    unfold leadingBit at *
    split <;> omega
  rw [hpow] at hv
  have hn := h.le_of_le_valueAt hv
  have habove := h.above
  have hbelow := h.below
  have hhalf := two_zpow_pos e
  rw [abs_le]
  constructor
  · rcases hn.lt_or_eq with hlt | rfl
    · linarith [hgap hlt]
    · linarith
  · rcases Nat.eq_zero_or_pos n with rfl | hpos
    · linarith
    · obtain ⟨i, rfl⟩ : ∃ i, n = i + 1 := ⟨n - 1, by omega⟩
      rw [Nat.add_sub_cancel] at habove
      linarith [hgap (by omega : i < positionOf (2 * leadingBit) e)]

end Nearest

/-! ## The doubles of either sign -/

/-- The position of a double in the row of those of its sign. -/
def position (x : Float) : Nat :=
  x.toBits.toNat % signBit

/-- Whether the bit for the sign is set. -/
def isNegative (x : Float) : Bool :=
  signBit ≤ x.toBits.toNat

/-- Whether the double is neither an infinity nor no number. -/
def isFinite (x : Float) : Bool :=
  position x < infinityBits

/-- A double is known by its sign and its position. -/
theorem isNegative_position_of {x : Float} {negative : Bool} (hn : n < signBit)
    (h : x.toBits.toNat = (if negative then signBit else 0) + n) :
    isNegative x = negative ∧ position x = n := by
  unfold isNegative position
  rw [h]
  unfold signBit at *
  cases negative <;> simp <;> omega

/-- Without the sign the exponent and the fraction are told from the position. -/
theorem div_leadingBit (x : Float) : x.toBits.toNat / leadingBit % 2048 = position x / leadingBit ∧
    x.toBits.toNat % leadingBit = position x % leadingBit := by
  unfold position signBit leadingBit
  omega

/-- The parts of a finite double are those of its position. -/
theorem parts_eq {x : Float} (h : isFinite x) : parts x =
    .finite (isNegative x) (mantissaAt (position x)) (exponentAt (position x)) := by
  obtain ⟨hbiased, hfraction⟩ := div_leadingBit x
  have hfinite : position x < infinityBits := of_decide_eq_true h
  unfold parts isNegative
  dsimp only
  rw [hbiased, hfraction]
  unfold mantissaAt exponentAt
  unfold infinityBits at hfinite
  have hlead : 0 < leadingBit := by decide
  rw [if_neg (by rw [Nat.div_eq_iff hlead]; omega)]
  by_cases hsmall : position x < leadingBit
  · rw [if_pos (Nat.div_eq_of_lt hsmall), if_pos hsmall, if_pos hsmall, Nat.mod_eq_of_lt hsmall]
  · rw [if_neg (by rw [Nat.div_eq_iff hlead]; omega), if_neg hsmall, if_neg hsmall]

/-- Only the finite doubles have a mantissa and an exponent. -/
theorem isFinite_iff {x : Float} : isFinite x ↔ ∃ negative m e, parts x = .finite negative m e := by
  refine ⟨fun h => ⟨_, _, _, parts_eq h⟩, ?_⟩
  rintro ⟨negative, m, e, h⟩
  unfold parts at h
  dsimp only at h
  split at h
  · split at h <;> cases h
  · rename_i hbiased
    rw [(div_leadingBit x).1] at hbiased
    have hlt : position x < signBit := Nat.mod_lt _ (by decide)
    refine decide_eq_true ?_
    unfold infinityBits signBit leadingBit at *
    omega

end EsotericHost.Decimal
