import EsotericHost.Decimal.Binary64

/-!
# The shortest decimal that reads back

Every real number in a small interval around a double rounds to that double; the ends belong to
the interval exactly when the mantissa is even. `shortest` looks for a decimal with the fewest
digits in that interval: on the grid of one digit, then of two, and so on, it tests the two grid
points next to the double. The first grid with a hit gives the answer, and of two hits the nearer
one. Seventeen digits always suffice.
-/

namespace EsotericHost.Decimal

/-- A decimal number `digits * 10 ^ exponent`. -/
structure Digits where
  digits : Nat
  exponent : Int
  deriving Repr, DecidableEq

/-- The interval of numbers that round to a double, as fractions of one denominator. -/
structure Cell where
  low : Nat
  value : Nat
  high : Nat
  den : Nat
  /-- Whether the ends of the interval round to the double as well. -/
  closed : Bool
  deriving Repr

/-- The cell of the positive double `m * 2 ^ e`. Below a power of two the neighbours are closer. -/
def cellOf (m : Nat) (e : Int) : Cell :=
  let up := if 0 ≤ e then 1 <<< e.toNat else 1
  let den := if 0 ≤ e then 1 else 1 <<< (-e).toNat
  let below := if m = leadingBit ∧ minExponent < e then 1 else 2
  { low := (4 * m - below) * up
    value := 4 * m * up
    high := (4 * m + 2) * up
    den := 4 * den
    closed := m % 2 = 0 }

/-- The power of ten as a fraction. -/
def tenPow (k : Int) : Nat × Nat :=
  if 0 ≤ k then (Nat.pow 10 k.toNat, 1) else (1, Nat.pow 10 (-k).toNat)

/-- Whether the decimal lies in the cell. -/
def Cell.holds (c : Cell) (d : Digits) : Bool :=
  let (num, den) := tenPow d.exponent
  let point := d.digits * num * c.den
  let low := c.low * den
  let high := c.high * den
  if c.closed then low ≤ point && point ≤ high else low < point && point < high

/-- The exponent `k` with `10 ^ k ≤ num / den < 10 ^ (k + 1)`, found next to an estimate from the
binary logarithms. -/
def decimalExponent (num den : Nat) : Int :=
  let reaches (k : Int) : Bool := (tenPow k).1 * den ≤ num * (tenPow k).2
  let estimate := (((num.log2 : Int) - den.log2) * 30103).fdiv 100000
  if reaches (estimate + 1) then estimate + 1
  else if reaches estimate then estimate
  else estimate - 1

/-- The nearer of the two points of the grid `10 ^ k` next to the value of the cell that lies in
the cell, if one does. -/
def Cell.onGrid (c : Cell) (k : Int) : Option Digits :=
  let (num, den) := tenPow k
  let unit := num * c.den
  let scaled := c.value * den
  let floor : Digits := ⟨scaled / unit, k⟩
  let ceiling : Digits := ⟨scaled / unit + 1, k⟩
  let rest := 2 * (scaled % unit)
  -- Of two points equally near the even one comes first.
  let floorFirst := rest < unit || (rest = unit && floor.digits % 2 = 0)
  let (first, second) := if floorFirst then (floor, ceiling) else (ceiling, floor)
  if first.digits ≠ 0 && c.holds first then some first
  else if second.digits ≠ 0 && c.holds second then some second
  else none

/-- The digits without the zeros at their end, looking at no more than `fuel` of them. -/
def Digits.trim : Nat → Digits → Digits
  | 0, d => d
  | fuel + 1, d => if d.digits % 10 = 0 then trim fuel ⟨d.digits / 10, d.exponent + 1⟩ else d

/-- The shortest decimal that rounds to the positive double `m * 2 ^ e`. -/
def shortest (m : Nat) (e : Int) : Digits :=
  let cell := cellOf m e
  let top := decimalExponent cell.value cell.den
  match (List.range 17).findSome? fun (places : Nat) => cell.onGrid (top - places) with
  | some d => d.trim 17
  | none => ⟨m, e⟩

end EsotericHost.Decimal
