import EsotericHost.Decimal.Binary64

/-!
# Reading numbers

The number literals that programs and options use: a signed decimal integer, and a floating-point
literal with an optional point and exponent, or one of the words for infinity and for what is not
a number. A floating-point literal is read as the nearest double.
-/

namespace EsotericHost.Decimal

/-- The value of a decimal digit. -/
def digitValue? (c : Char) : Option Nat :=
  if '0' ≤ c ∧ c ≤ '9' then some (c.toNat - '0'.toNat) else none

/-- The digits at the front of a text. -/
def takeDigits (cs : List Char) : List Nat × List Char :=
  ((cs.takeWhile (digitValue? · |>.isSome)).filterMap digitValue?,
    cs.dropWhile (digitValue? · |>.isSome))

/-- The number that a row of digits stands for. -/
def ofDigits (ds : List Nat) : Nat :=
  ds.foldl (fun n d => 10 * n + d) 0

/-- A text of nothing but digits, and of at least one. -/
def readNat? (cs : List Char) : Option Nat :=
  match takeDigits cs with
  | ([], _) => none
  | (ds, []) => some (ofDigits ds)
  | _ => none

/-- Splits off a sign; the flag says whether it was a minus. -/
def takeSign : List Char → Bool × List Char
  | '-' :: rest => (true, rest)
  | '+' :: rest => (false, rest)
  | cs => (false, cs)

/-- A decimal integer with an optional sign. -/
def readInt? (cs : List Char) : Option Int :=
  let (negative, rest) := takeSign cs
  (readNat? rest).map fun n => if negative then -(n : Int) else n

/-- A decimal integer that fits 64 bits with a sign. -/
def readInt64? (cs : List Char) : Option Int :=
  (readInt? cs).filter Word.holdsInt

/-- The double nearest to `digits * 10 ^ exponent`. An exponent far out of range decides the
answer before any large power is computed. -/
def ofDecimal (negative : Bool) (digits : Nat) (exponent : Int) : Float :=
  -- No fewer than the digits have, as `2 ^ 3 < 10`.
  let places : Int := (Nat.log2 digits : Int) / 3 + 1
  if digits = 0 ∨ exponent + places < -400 then nearest negative 0 1
  else if 400 < exponent then nearest negative (Nat.pow 10 400) 1
  else if 0 ≤ exponent then nearest negative (digits * Nat.pow 10 exponent.toNat) 1
  else nearest negative digits (Nat.pow 10 (-exponent).toNat)

/-- The words that name the doubles that are not finite, in any case. -/
def readWord? (negative : Bool) (cs : List Char) : Option Float :=
  let word := cs.map Char.toLower
  if word = "inf".toList ∨ word = "infinity".toList then
    some (if negative then -1.0 / 0.0 else 1.0 / 0.0)
  else if word = "nan".toList then some (0.0 / 0.0)
  else none

/-- The exponent of a literal: nothing, or the letter, an optional sign and digits. -/
def readExponent? : List Char → Option Int
  | [] => some 0
  | c :: rest => if c = 'e' ∨ c = 'E' then readInt? rest else none

/-- A floating-point literal: an optional sign, digits with an optional point among or beside
them, and an optional exponent. -/
def readFloat? (cs : List Char) : Option Float :=
  let (negative, body) := takeSign cs
  let (whole, rest) := takeDigits body
  let (fraction, rest) := match rest with
    | '.' :: after => takeDigits after
    | _ => ([], rest)
  -- A lone point has no digits either; it is no word and gives nothing.
  if whole.isEmpty ∧ fraction.isEmpty then readWord? negative body
  else (readExponent? rest).map fun exponent =>
    ofDecimal negative (ofDigits (whole ++ fraction)) (exponent - fraction.length)

end EsotericHost.Decimal
