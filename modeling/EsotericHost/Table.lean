/-!
# Tables

A table is a list of keys and values in the order of the keys, which is the order of the code
points of their characters, with one value a key. Members of JSON objects, options and variables
are kept in tables.
-/

namespace EsotericHost.Table

variable {α : Type}

/-- Puts a value into a table, in place of the value that the key has. -/
def insert (key : String) (value : α) : List (String × α) → List (String × α)
  | [] => [(key, value)]
  | (k, v) :: rest =>
    if key < k then (key, value) :: (k, v) :: rest
    else if key = k then (key, value) :: rest
    else (k, v) :: insert key value rest

/-- The value of a key. -/
def find? (key : String) (table : List (String × α)) : Option α :=
  table.lookup key

end EsotericHost.Table
