import EsotericHost.Decimal.Layout
import EsotericHost.Decimal.Literal
import EsotericHost.Json.Basic
import EsotericHost.Text.Blank

/-!
# Values of the token machine

A value is a double or a text, and each instruction reads it as it needs it: as a number, as a
text, or as a truth value.
-/

namespace EsotericHost.Element

/-- A double or a text. -/
inductive Value where
  | number (x : Float)
  | text (s : String)
  deriving DecidableEq

namespace Value

/-- A word of the source: a number if it spells one. -/
def ofWord (word : List Char) : Value :=
  match Decimal.readFloat? word with
  | some x => number x
  | none => text (String.ofList word)

/-- The truth values are one and zero. -/
def ofBool (b : Bool) : Value :=
  number (if b then 1.0 else 0.0)

/-- The number that the value spells, or zero. -/
def toFloat : Value → Float
  | number x => x
  | text s => (Decimal.readFloat? (Text.trimChars s.toList)).getD 0.0

/-- Every number but zero is true. -/
def truthy (v : Value) : Bool :=
  v.toFloat != 0.0

/-- Numbers are written in positional notation whatever their size. -/
def layout : Decimal.Layout :=
  ⟨fun _ => true, false⟩

/-- Whether a finite double has no fraction. -/
def isWhole (mantissa : Nat) (exponent : Int) : Bool :=
  0 ≤ exponent || mantissa % (1 <<< (-exponent).toNat) = 0

/-- The whole numbers below `10 ^ 15` are written as integers. -/
def wholeBound : Nat := 1000000000000000

/-- The text of the value. Zero has no sign, and a whole number below `10 ^ 15` is written as an
integer. -/
def toText : Value → String
  | text s => s
  | number x =>
    match Decimal.parts x with
    | .finite negative m e =>
      if isWhole m e && Decimal.wholePart m e < wholeBound then
        toString (if negative then -(Decimal.wholePart m e : Int) else Decimal.wholePart m e)
      else layout.write x
    | _ => layout.write x

/-- The value as the client sees it. -/
def toJson : Value → Json
  | number x => .ofFloat x
  | text s => .string s

end Value

end EsotericHost.Element
