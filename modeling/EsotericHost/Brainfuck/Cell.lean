/-!
# Cell types

The cells of a tape hold integers of a fixed width, with or without a sign. Arithmetic on a cell
is exact and then wraps: the cell takes the value of its range that is congruent to the result.
-/

namespace EsotericHost.Brainfuck

/-- The widths of a cell. -/
inductive CellType where
  | uint8
  | int8
  | uint16
  | int16
  | uint32
  | int32
  deriving Repr, DecidableEq, Inhabited

namespace CellType

/-- The number of values of a cell. -/
def size : CellType → Int
  | uint8 | int8 => 256
  | uint16 | int16 => 65536
  | uint32 | int32 => 4294967296

/-- Whether the cell holds negative numbers. -/
def signed : CellType → Bool
  | int8 | int16 | int32 => true
  | uint8 | uint16 | uint32 => false

/-- The type of the given name, in any case; each has a long name and a short one. -/
def ofName? (name : String) : Option CellType :=
  let lower := String.ofList (name.toList.map Char.toLower)
  if lower = "uint8" ∨ lower = "u8" then some uint8
  else if lower = "int8" ∨ lower = "i8" then some int8
  else if lower = "uint16" ∨ lower = "u16" then some uint16
  else if lower = "int16" ∨ lower = "i16" then some int16
  else if lower = "uint32" ∨ lower = "u32" then some uint32
  else if lower = "int32" ∨ lower = "i32" then some int32
  else none

/-- The value of the type's range that is congruent to the given one modulo the size. -/
def wrap (t : CellType) (value : Int) : Int :=
  let v := value % t.size
  if t.signed && t.size / 2 ≤ v then v - t.size else v

end CellType

end EsotericHost.Brainfuck
