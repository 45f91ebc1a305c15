import EsotericHost.Word

/-!
# Double-precision numbers as fractions

A finite double is an integer mantissa times a power of two. `parts` takes a double apart into
that form and `nearest` goes the other way: it gives the double nearest to a quotient of natural
numbers, a tie going to the even mantissa and a quotient beyond the largest double to infinity.
Truncation to a 64-bit integer and the remainder of a division are computed exactly on the parts.
-/

namespace EsotericHost.Decimal

/-- What a double stands for: `finite s m e` is `m * 2 ^ e` in magnitude, negative iff `s`. -/
inductive Parts where
  | nan
  | infinite (negative : Bool)
  | finite (negative : Bool) (mantissa : Nat) (exponent : Int)
  deriving Repr, DecidableEq

/-- The exponent of the smallest positive double, which is `2 ^ minExponent`. -/
def minExponent : Int := -1074

/-- The value of the leading bit of a mantissa, `2 ^ 52`. -/
def leadingBit : Nat := 4503599627370496

/-- The value of the bit for the sign, `2 ^ 63`. -/
def signBit : Nat := 9223372036854775808

/-- The double taken apart. -/
def parts (x : Float) : Parts :=
  let bits := x.toBits.toNat
  let negative := signBit ≤ bits
  let biased : Nat := bits / leadingBit % 2048
  let fraction : Nat := bits % leadingBit
  if biased = 2047 then if fraction = 0 then .infinite negative else .nan
  else if biased = 0 then .finite negative fraction minExponent
  else .finite negative (fraction + leadingBit) (biased + minExponent - 1)

/-- The quotient rounded to the nearest natural number, a tie to the even one. -/
def divRoundEven (num den : Nat) : Nat :=
  let q := num / den
  let twice := 2 * (num % den)
  if twice < den then q
  else if den < twice then q + 1
  else q + q % 2

/-- The bits of the double nearest to `num / den`, without the sign. A mantissa that rounds up to
the next power of two carries into the exponent, as the layout of the bits wants it. -/
def nearestBits (num den : Nat) : Nat :=
  if num = 0 then 0
  else
    -- The quotient of the leading bits is off by one at most.
    let estimate : Int := (num.log2 : Int) - den.log2 - 53
    let scaled (e : Int) : Nat × Nat :=
      if 0 ≤ e then (num, den <<< e.toNat) else (num <<< (-e).toNat, den)
    let fits (e : Int) : Bool := (scaled e).1 < 2 * leadingBit * (scaled e).2
    let e := max minExponent (if fits estimate then estimate else estimate + 1)
    let mantissa := divRoundEven (scaled e).1 (scaled e).2
    let bits := (e - minExponent).toNat * leadingBit + mantissa
    -- Whatever is beyond the largest double has the bits of infinity.
    min bits (2047 * leadingBit)

/-- The double nearest to `num / den`, with the given sign. -/
def nearest (negative : Bool) (num den : Nat) : Float :=
  Float.ofBits (UInt64.ofNat (nearestBits num den + if negative then signBit else 0))

/-- The double `m * 2 ^ e`, rounded if it has to be. -/
def ofScaled (negative : Bool) (mantissa : Nat) (exponent : Int) : Float :=
  if 0 ≤ exponent then nearest negative (mantissa <<< exponent.toNat) 1
  else nearest negative mantissa (1 <<< (-exponent).toNat)

/-- The magnitude of a finite double without its fraction. -/
def wholePart (mantissa : Nat) (exponent : Int) : Nat :=
  if 0 ≤ exponent then mantissa <<< exponent.toNat else mantissa >>> (-exponent).toNat

/-- The double without its fraction as a 64-bit integer: one out of range goes to the nearest end
of the range, and what is not a number gives 0. -/
def truncate (x : Float) : Int :=
  match parts x with
  | .nan => 0
  | .infinite true => -Word.intBound
  | .infinite false => Word.intBound - 1
  | .finite negative m e =>
    Word.clamp (if negative then -(wholePart m e : Int) else wholePart m e)

/-- The double without its fraction as a 64-bit natural number: a negative one and what is not a
number give 0, and one out of range goes to the end of the range. -/
def truncateNat (x : Float) : Nat :=
  match parts x with
  | .infinite false => Word.natBound - 1
  | .finite false m e => min (Word.natBound - 1) (wholePart m e)
  | _ => 0

/-- What is left of `x` after taking away the whole multiples of `y`, with the sign of `x`. -/
def remainder (x y : Float) : Float :=
  match parts x, parts y with
  | .finite negative mx ex, .finite _ my ey =>
    if my = 0 then 0.0 / 0.0
    else
      let e := min ex ey
      let left := (mx <<< (ex - e).toNat) % (my <<< (ey - e).toNat)
      ofScaled negative left e
  | .finite .., .infinite _ => x
  | _, _ => 0.0 / 0.0

end EsotericHost.Decimal
