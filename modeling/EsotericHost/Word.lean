/-!
# Numbers of 64 bits

The bounds of the integers that fit a machine word, with a sign or without. Numbers that programs
and settings spell are checked against them or clamped to them.
-/

namespace EsotericHost.Word

/-- The natural numbers of 64 bits are those below `2 ^ 64`. -/
def natBound : Nat := 18446744073709551616

/-- The integers of 64 bits with a sign are those from `-2 ^ 63` to below `2 ^ 63`. -/
def intBound : Int := 9223372036854775808

/-- Whether a natural number fits. -/
def holdsNat (n : Nat) : Bool := n < natBound

/-- Whether an integer with a sign fits. -/
def holdsInt (n : Int) : Bool := -intBound ≤ n && n < intBound

/-- The integer with a sign that fits and is closest to the given one. -/
def clamp (n : Int) : Int := max (-intBound) (min (intBound - 1) n)

end EsotericHost.Word
