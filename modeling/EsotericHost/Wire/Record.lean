import EsotericHost.Json.Basic

/-!
# Records on the wire

Commands and events travel as JSON records. A record is written either as an object, whose members
may stand in any order, or as an array that holds the fields in their order. A tagged record starts
with a tag that names its variant: the object has a member for it, the array has it in front.

In an object, a known field may stand only once and unknown fields are passed over. In an array,
fields may be missing at the end but none may follow the last one. A field is required, or has a
default for when it is missing, or is optional, in which case `null` stands for a missing value.
-/

namespace EsotericHost.Wire

/-- The fields of a record as they are written. -/
inductive Fields where
  | named (members : List (String × Json))
  | positional (items : List Json)

/-- The fields of an untagged record. -/
def fieldsOf? : Json → Option Fields
  | .object members => some (.named members)
  | .array items => some (.positional items)
  | _ => none

/-- The value of a member that may stand only once, if it stands there at all. -/
def once? (name : String) (members : List (String × Json)) : Option (Option Json) :=
  match members.filter (·.1 = name) with
  | [] => some none
  | [(_, v)] => some (some v)
  | _ => none

/-- The values of the given fields, as far as they are written. -/
def Fields.values? (names : List String) : Fields → Option (List (Option Json))
  | .named members => names.mapM fun name => once? name members
  | .positional items =>
    -- More items than fields are refused; unknown members of an object are not.
    if items.length ≤ names.length then
      some (items.map some ++ List.replicate (names.length - items.length) none)
    else none

/-- The tag of a record and its fields. -/
def tagged? (tag : String) : Json → Option (Json × Fields)
  | .object members =>
    match once? tag members with
    -- Without the tag, so that it is not taken for a field of the variant.
    | some (some v) => some (v, .named (members.filter (·.1 ≠ tag)))
    | _ => none
  | .array (v :: items) => some (v, .positional items)
  | _ => none

/-- The variant that a tag names. -/
def variant? (variants : List String) : Json → Option String
  | .string s => if s ∈ variants then some s else none
  | _ => none

/-- The variant that the tag of a record inside a record names. Its number will do as well. -/
def innerVariant? (variants : List String) : Json → Option String
  | .number (.int n) => if 0 ≤ n then variants[n.toNat]? else none
  | v => variant? variants v

/-- The choice that a value names. It may also stand as the one key of an object, with nothing as
its value; `isNothing` says what that is. -/
def choice? (isNothing : Json → Bool) (choices : List String) : Json → Option String
  | .object [(name, v)] => if isNothing v then variant? choices (.string name) else none
  | v => variant? choices v

/-- Only `null` is nothing. -/
def isNull : Json → Bool
  | .null => true
  | _ => false

/-- Inside a record an object without members is nothing as well. -/
def isInnerNull : Json → Bool
  | .null | .object [] => true
  | _ => false

/-! ## Fields -/

section

variable {α : Type}

/-- A field that has to be there. -/
def required (decode : Json → Option α) (field : Option Json) : Option α :=
  field.bind decode

/-- A field that has a value if it is missing. -/
def defaulted (default : α) (decode : Json → Option α) : Option Json → Option α
  | none => some default
  | some v => decode v

/-- A field that may be missing or `null`. -/
def optional (decode : Json → Option α) : Option Json → Option (Option α)
  | none | some .null => some none
  | some v => (decode v).map some

end

/-- A string. -/
def string? : Json → Option String
  | .string s => some s
  | _ => none

/-- A truth value. -/
def bool? : Json → Option Bool
  | .bool b => some b
  | _ => none

/-- A natural number of 64 bits. -/
def nat? : Json → Option Nat
  | .number (.int n) => if 0 ≤ n ∧ n < Word.natBound then some n.toNat else none
  | _ => none

/-- An integer of 64 bits. -/
def int? : Json → Option Int
  | .number n => n.toInt64?
  | _ => none

/-- An array of integers of 64 bits. -/
def ints? : Json → Option (Array Int)
  | .array items => (items.mapM int?).map List.toArray
  | _ => none

/-- Any value, in its normal form. -/
def any? (v : Json) : Option Json := some v.canonical

/-- The members of an object, in normal form. -/
def members? (v : Json) : Option (List (String × Json)) :=
  match v.canonical with
  | .object members => some members
  | _ => none

end EsotericHost.Wire
