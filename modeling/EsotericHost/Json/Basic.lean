import EsotericHost.Decimal.Binary64
import EsotericHost.Table

/-!
# JSON values

A JSON value keeps the members of an object in a list. A value that has just been read still shows
every member that was written, in the order of the text; `Json.canonical` gives the value its
normal form, in which each object has one member a key (the last one written) and the members are
in the order of their keys. All values that the host stores are canonical.
-/

namespace EsotericHost

/-- A JSON number: an integer that fits 64 bits with or without a sign, or a double. -/
inductive Json.Number where
  | int (n : Int)
  | float (x : Float)

/-- A JSON value. -/
inductive Json where
  | null
  | bool (b : Bool)
  | number (n : Json.Number)
  | string (s : String)
  | array (items : List Json)
  | object (members : List (String × Json))

namespace Json

instance : Inhabited Json := ⟨null⟩

/-- The integers that a number can hold exactly. -/
def Number.fits (n : Int) : Bool :=
  -Word.intBound ≤ n && n < Word.natBound

/-- The number as a 64-bit integer with a sign, if it is an integer that fits. -/
def Number.toInt64? : Number → Option Int
  | .int n => if n < Word.intBound then some n else none
  | .float _ => none

/-- A natural number as a JSON value. -/
def ofNat (n : Nat) : Json :=
  .number (.int n)

/-- An integer as a JSON value. -/
def ofInt (n : Int) : Json :=
  .number (.int n)

/-- A double as a JSON value; one that is not finite has no number and becomes `null`. -/
def ofFloat (x : Float) : Json :=
  match Decimal.parts x with
  | .finite .. => .number (.float x)
  | _ => .null

/-- The value of a key in an object; no other value has keys. -/
def get? (key : String) : Json → Option Json
  | .object members => Table.find? key members
  | _ => none

mutual

/-- The value with one member a key in every object, in the order of the keys. -/
def canonical : Json → Json
  | .array items => .array (canonicalItems items)
  | .object members => .object (canonicalMembers [] members)
  | v => v

/-- The items in their normal forms. -/
def canonicalItems : List Json → List Json
  | [] => []
  | v :: rest => v.canonical :: canonicalItems rest

/-- The members collected so far, joined by those that follow; a later member replaces an earlier
one of the same key. -/
def canonicalMembers (done : List (String × Json)) : List (String × Json) → List (String × Json)
  | [] => done
  | (k, v) :: rest => canonicalMembers (Table.insert k v.canonical done) rest

end

end Json

end EsotericHost
