import EsotericHost.Json.Basic

/-!
# TOML values

A settings file in the form of TOML is a table of values, among them tables again. `ofJson?` gives
the value that a JSON value stands for, if there is one.
-/

namespace EsotericHost

/-- A value of a settings file. -/
inductive Toml where
  | bool (b : Bool)
  | int (n : Int)
  | float (x : Float)
  | string (s : String)
  | array (items : List Toml)
  | table (members : List (String × Toml))

namespace Toml

instance : Inhabited Toml := ⟨bool false⟩

/-- The characters of a key that needs no quotes. -/
def isKeyChar (c : Char) : Bool := c.isAlphanum || c = '_' || c = '-'

mutual

/-- The JSON value as a value of a settings file; `null` and integers of more than 64 bits with a
sign have none. -/
def ofJson? : Json → Option Toml
  | .null => none
  | .bool b => some (bool b)
  | .number (.int n) => if n < Word.intBound then some (int n) else none
  | .number (.float x) => some (float x)
  | .string s => some (string s)
  | .array items => (ofJsonItems? items).map array
  | .object members => (ofJsonMembers? members).map table

/-- The items as values of a settings file. -/
def ofJsonItems? : List Json → Option (List Toml)
  | [] => some []
  | v :: rest =>
    match ofJson? v, ofJsonItems? rest with
    | some v, some rest => some (v :: rest)
    | _, _ => none

/-- The members as values of a settings file. -/
def ofJsonMembers? : List (String × Json) → Option (List (String × Toml))
  | [] => some []
  | (key, v) :: rest =>
    match ofJson? v, ofJsonMembers? rest with
    | some v, some rest => some ((key, v) :: rest)
    | _, _ => none

end

end Toml

end EsotericHost
