import EsotericHost.Event

/-!
# Notices and effects

A machine has no output of its own. What it does to the outside is a list of effects: text that it
prints, and notices of changes inside it. Each language shows its notices to the client in its own
way: `tapeUpdates`, `lineUpdates`, `fieldUpdates` and `tokenUpdates` are the four ways.
-/

namespace EsotericHost

/-- A change inside a machine. -/
inductive Notice where
  | instructionPointer (value : Nat)
  | dataPointer (value : Nat)
  | cell (index : Nat) (value : Int)
  | memory (cells : Array Int)
  | pushed (stack : Option String) (value : Json)
  | popped (stack : Option String) (value : Json)
  | cleared (stack : Option String)
  /-- A variable has a new value, or `null` if it is gone. -/
  | binding (name : String) (value : Json)
  | position (key : String) (value : Nat)
  | line (value : Nat)

/-- What a machine does to the outside. -/
inductive Effect where
  | print (text : String)
  | notify (notice : Notice)

namespace Notice

/-- An entry of the client's table of pointers. -/
def pointer (key : String) (value : Nat) : Update :=
  .entry "pointers" key .set (.ofNat value)

/-- Notices about stacks look alike in all languages; other notices are not shown. -/
def stackUpdates : Notice → List Update
  | pushed stack value => [.stack stack .push (some value)]
  | popped stack value => [.stack stack .pop (some value)]
  | cleared stack => [.stack stack .empty none]
  | _ => []

/-- A machine with a tape shows its tape and its two pointers. -/
def tapeUpdates : Notice → List Update
  | instructionPointer value => [.instructionPointer value, pointer "ip" value]
  | dataPointer value => [.dataPointer value, pointer "data" value]
  | cell index value => [.data index value]
  | memory cells => [.allData cells]
  | _ => []

/-- A machine that runs through lines shows its line and its stack. -/
def lineUpdates : Notice → List Update
  | line value => [pointer "ip" value]
  | notice => notice.stackUpdates

/-- A machine that moves over a playfield shows its coordinates and its stack. -/
def fieldUpdates : Notice → List Update
  | position key value => [pointer key value]
  | notice => notice.stackUpdates

/-- A machine with variables shows them beside its position and its stacks. -/
def tokenUpdates : Notice → List Update
  | position key value => [pointer key value]
  | binding name .null => [.entry "vars" name .delete .null]
  | binding name value => [.entry "vars" name .set value]
  | notice => notice.stackUpdates

end Notice

/-- The events of an effect. Notices are events only for a client that watches. -/
def Effect.events (visualize : Bool) (portray : Notice → List Update) : Effect → List Event
  | print text => [.print text]
  | notify notice => if visualize then (portray notice).map .update else []

end EsotericHost
