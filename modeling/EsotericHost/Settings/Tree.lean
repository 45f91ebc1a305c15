import EsotericHost.Toml.Basic

/-!
# Trees of settings

Settings of every form are gathered in one tree. A value is put into a tree at a `Place`, a row of
steps each of which goes to a key of a table or to an item of an array. What a step needs and does
not find is made: `Tree.putAt` always succeeds. Where a table comes upon a table the two are joined
key by key; any other value takes the place of the one that stands there.
-/

namespace EsotericHost.Settings

/-- A value in the settings. `nothing` also stands where nothing has been set. -/
inductive Tree where
  | nothing
  | bool (b : Bool)
  | int (n : Int)
  | float (x : Float)
  | string (s : String)
  | array (items : List Tree)
  | table (members : List (String × Tree))

/-- A step into a tree. A negative index counts from the end of the array. -/
inductive Step where
  | key (name : String)
  | item (index : Int)
  deriving Repr, DecidableEq

/-- The way from the root of a tree to a value in it. -/
abbrev Place := List Step

namespace Tree

instance : Inhabited Tree := ⟨nothing⟩

/-- The members of a table; no other value has members. -/
def members : Tree → List (String × Tree)
  | table members => members
  | _ => []

/-- The items of an array; no other value has items. -/
def items : Tree → List Tree
  | array items => items
  | _ => []

/-- The value of a key, which is `nothing` if there is none. -/
def get (name : String) (t : Tree) : Tree :=
  (Table.find? name t.members).getD nothing

mutual

/-- A value put over another one. -/
def putOn (old : Tree) : Tree → Tree
  | table new => table (putAll old.members new)
  | v => v

/-- New members put over those of a table. -/
def putAll (old : List (String × Tree)) : List (String × Tree) → List (String × Tree)
  | [] => old
  | (name, v) :: rest =>
    putAll (Table.insert name (putOn ((Table.find? name old).getD nothing) v) old) rest

end

/-- The items together with one at an index, and the position of that one. Where the array is too
short it is filled up with `nothing`, at its front if the index counts from the end. -/
def makeRoom (index : Int) (items : List Tree) : List Tree × Nat :=
  let position := if index < 0 then index + items.length else index
  -- The new items push the others back, so the one wanted is the first.
  if position < 0 then (List.replicate position.natAbs nothing ++ items, 0)
  else
    (items ++ List.replicate (position.toNat + 1 - items.length) nothing, position.toNat)

/-- The tree with a value put over what stands at a place. -/
def putAt (v : Tree) : Place → Tree → Tree
  | [], old => putOn old v
  | .key name :: place, old =>
    table (Table.insert name (putAt v place (old.get name)) old.members)
  | .item index :: place, old =>
    let (items, position) := makeRoom index old.items
    array (items.modify position (putAt v place))

/-! ## Other forms -/

mutual

/-- The tree that a TOML value stands for. -/
def ofToml : Toml → Tree
  | .bool b => bool b
  | .int n => int n
  | .float x => float x
  | .string s => string s
  | .array items => array (ofTomlItems items)
  | .table members => table (ofTomlMembers members)

/-- The trees that TOML values stand for. -/
def ofTomlItems : List Toml → List Tree
  | [] => []
  | v :: rest => ofToml v :: ofTomlItems rest

/-- The trees that the members of a TOML table stand for. -/
def ofTomlMembers : List (String × Toml) → List (String × Tree)
  | [] => []
  | (key, v) :: rest => (key, ofToml v) :: ofTomlMembers rest

end

mutual

/-- The tree that a JSON value stands for. An integer of more than 64 bits with a sign becomes a
double. -/
def ofJson : Json → Tree
  | .null => nothing
  | .bool b => bool b
  | .number (.int n) => if n < Word.intBound then int n else float (Float.ofInt n)
  | .number (.float x) => float x
  | .string s => string s
  | .array items => array (ofJsonItems items)
  | .object members => table (ofJsonMembers members)

/-- The trees that JSON values stand for. -/
def ofJsonItems : List Json → List Tree
  | [] => []
  | v :: rest => ofJson v :: ofJsonItems rest

/-- The trees that the members of a JSON object stand for. -/
def ofJsonMembers : List (String × Json) → List (String × Tree)
  | [] => []
  | (key, v) :: rest => (key, ofJson v) :: ofJsonMembers rest

end

mutual

/-- The value as a JSON value. -/
def toJson : Tree → Json
  | nothing => .null
  | bool b => .bool b
  | int n => .ofInt n
  | float x => .ofFloat x
  | string s => .string s
  | array items => .array (toJsonItems items)
  | table members => .object (toJsonMembers members)

/-- The items as JSON values. -/
def toJsonItems : List Tree → List Json
  | [] => []
  | v :: rest => v.toJson :: toJsonItems rest

/-- The members as JSON values. -/
def toJsonMembers : List (String × Tree) → List (String × Json)
  | [] => []
  | (key, v) :: rest => (key, v.toJson) :: toJsonMembers rest

end

end Tree

end EsotericHost.Settings
