import EsotericHost.Brainfuck.Cell
import Mathlib.Algebra.Order.Group.Unbundled.Int
import Mathlib.Data.Int.ModEq

/-!
# The range of a cell

A cell of so many bits holds the numbers of two's complement if its type has a sign, and otherwise
those that are not negative (`CellType.Holds`). Of all numbers that are congruent modulo the power
of two of its bits it holds exactly one, and this one is what wrapping makes of each of them
(`CellType.residue_iff`).
-/

namespace EsotericHost.Brainfuck.CellType

variable {t : CellType} {value number : Int}

/-- The number of bits of a cell. -/
def bits : CellType → Nat
  | uint8 | int8 => 8
  | uint16 | int16 => 16
  | uint32 | int32 => 32

/-- The numbers that a cell holds. -/
def Holds (t : CellType) (value : Int) : Prop :=
  if t.signed then -2 ^ (t.bits - 1) ≤ value ∧ value < 2 ^ (t.bits - 1)
  else 0 ≤ value ∧ value < 2 ^ t.bits

instance (t : CellType) (value : Int) : Decidable (t.Holds value) :=
  inferInstanceAs (Decidable (if t.signed then _ else _))

/-- The number of the range that stands for another one: it is congruent to it. -/
structure Residue (t : CellType) (number value : Int) : Prop where
  holds : t.Holds value
  modEq : value ≡ number [ZMOD 2 ^ t.bits]

/-- A cell has as many numbers as its bits make. -/
theorem size_eq (t : CellType) : t.size = 2 ^ t.bits := by
  cases t <;> rfl

/-- The range is the upper half of the remainders, taken down by the size, and the lower half; or it
is that of the remainders. -/
theorem holds_iff : t.Holds value ↔
    if t.signed then -(t.size / 2) ≤ value ∧ value < t.size / 2 else 0 ≤ value ∧ value < t.size := by
  cases t <;> exact Iff.rfl

/-! ## Wrapping -/

/-- A wrapped value is congruent to the value. -/
theorem wrap_emod (t : CellType) (value : Int) : t.wrap value % t.size = value % t.size := by
  unfold wrap
  dsimp only
  split
  · rw [Int.sub_emod, Int.emod_self, Int.sub_zero, Int.emod_emod, Int.emod_emod]
  · rw [Int.emod_emod]

/-- Congruent values wrap alike. -/
theorem wrap_congr (t : CellType) {value value' : Int} (h : value % t.size = value' % t.size) :
    t.wrap value = t.wrap value' := by
  unfold wrap
  rw [h]

/-- It does not matter whether a sum is wrapped on the way. -/
theorem wrap_wrap_add (t : CellType) (value difference : Int) :
    t.wrap (t.wrap value + difference) = t.wrap (value + difference) := by
  apply t.wrap_congr
  rw [Int.add_emod, t.wrap_emod, ← Int.add_emod]

/-- Zero is in the range of every cell. -/
theorem wrap_zero (t : CellType) : t.wrap 0 = 0 := by
  cases t <;> rfl

/-- A number that has been wrapped is in the range. -/
theorem holds_wrap (t : CellType) (value : Int) : t.Holds (t.wrap value) := by
  have hsize : 0 < t.size ∧ t.size = 2 * (t.size / 2) := by
    cases t <;> decide
  have hlow : 0 ≤ value % t.size := Int.emod_nonneg _ (by omega)
  have hhigh : value % t.size < t.size := Int.emod_lt_of_pos _ hsize.1
  rw [holds_iff]
  unfold wrap
  -- Only a cell with a sign takes its upper half down.
  cases t.signed with
  | true =>
    simp only [Bool.true_and, decide_eq_true_eq, if_true]
    split <;> omega
  | false =>
    simp only [Bool.false_and, Bool.false_eq_true, if_false]
    exact ⟨hlow, hhigh⟩

/-- Two numbers of the range are less than the size apart. -/
theorem Holds.sub_lt {value' : Int} (h : t.Holds value) (h' : t.Holds value') :
    value - value' < t.size := by
  have hsize : t.size = 2 * (t.size / 2) := by
    cases t <;> decide
  rw [holds_iff] at h h'
  cases hs : t.signed with
  | true =>
    rw [hs, if_pos rfl] at h h'
    omega
  | false =>
    rw [hs, if_neg Bool.false_ne_true] at h h'
    omega

/-- Congruent numbers of the range are equal. -/
theorem Holds.eq_of_modEq {value' : Int} (h : t.Holds value) (h' : t.Holds value')
    (hmod : value ≡ value' [ZMOD t.size]) : value = value' := by
  have hclose : |value' - value| < t.size := by
    have hbelow : value - value' < t.size := h.sub_lt h'
    have habove : value' - value < t.size := h'.sub_lt h
    rw [abs_lt]
    constructor <;> omega
  have hzero : value' - value = 0 := Int.eq_zero_of_abs_lt_dvd hmod.dvd hclose
  omega

/-- Wrapping finds the number of the range that stands for another one, and there is no other. -/
theorem residue_iff : t.Residue number value ↔ value = t.wrap number := by
  constructor
  · rintro ⟨hholds, hmod⟩
    rw [← t.size_eq] at hmod
    exact hholds.eq_of_modEq (t.holds_wrap number) (hmod.trans (t.wrap_emod number).symm)
  · rintro rfl
    refine ⟨t.holds_wrap number, ?_⟩
    rw [← t.size_eq]
    exact t.wrap_emod number

/-- A number of the range stands for itself. -/
theorem Holds.wrap_eq (h : t.Holds value) : t.wrap value = value :=
  (residue_iff.mp ⟨h, Int.ModEq.refl value⟩).symm

end EsotericHost.Brainfuck.CellType
