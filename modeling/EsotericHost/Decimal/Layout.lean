import EsotericHost.Decimal.Shortest

/-!
# Writing a double

The digits of a double are the shortest that read back; a `Layout` says how they are set. The
number texts of JSON and of the stack language are two such layouts.
-/

namespace EsotericHost.Decimal

/-- How the digits of a number are set. -/
structure Layout where
  /-- Whether a number whose first digit stands for `10 ^ k` is written without an exponent. -/
  positional : Int → Bool
  /-- Whether a whole number in positional notation keeps a zero after the point. -/
  keepsPoint : Bool

/-- The decimal digits of a natural number. -/
def digitChars (n : Nat) : List Char :=
  Nat.toDigits 10 n

/-- Positional notation. -/
def Digits.positional (d : Digits) (keepsPoint : Bool) : String :=
  let ds := digitChars d.digits
  let point : Int := ds.length + d.exponent
  if 0 ≤ d.exponent then
    String.ofList (ds ++ List.replicate d.exponent.toNat '0' ++
      if keepsPoint then ['.', '0'] else [])
  else if 0 < point then
    String.ofList (ds.take point.toNat ++ '.' :: ds.drop point.toNat)
  else
    String.ofList ('0' :: '.' :: List.replicate (-point).toNat '0' ++ ds)

/-- One digit before the point, and the power of ten with its sign. -/
def Digits.scientific (d : Digits) : String :=
  let ds := digitChars d.digits
  let k : Int := ds.length - 1 + d.exponent
  let fraction := if ds.length ≤ 1 then [] else '.' :: ds.drop 1
  let sign := if k < 0 then '-' else '+'
  String.ofList (ds.take 1 ++ fraction ++ 'e' :: sign :: digitChars k.natAbs)

/-- The text of the positive double `m * 2 ^ e`. -/
def Layout.positive (l : Layout) (m : Nat) (e : Int) : String :=
  let d := shortest m e
  let k : Int := (digitChars d.digits).length - 1 + d.exponent
  if l.positional k then d.positional l.keepsPoint else d.scientific

/-- The text of the finite double `± m * 2 ^ e`. -/
def Layout.finite (l : Layout) (negative : Bool) (m : Nat) (e : Int) : String :=
  let magnitude :=
    if m = 0 then (if l.keepsPoint then "0.0" else "0") else l.positive m e
  if negative then "-" ++ magnitude else magnitude

/-- The text of a double; the three that are not finite are `NaN`, `inf` and `-inf`. -/
def Layout.write (l : Layout) (x : Float) : String :=
  match parts x with
  | .nan => "NaN"
  | .infinite false => "inf"
  | .infinite true => "-inf"
  | .finite negative m e => l.finite negative m e

end EsotericHost.Decimal
