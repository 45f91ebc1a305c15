import EsotericHost.Brainfuck.Cell
import EsotericHost.Brainfuck.Program
import EsotericHost.Machine.Basic
import EsotericHost.Options
import EsotericHost.Text.Scalar
import EsotericHost.Word

/-!
# The tape machine

A tape of cells, called the reel, and a data pointer that moves over it. Moving the pointer off
either end of the reel is an error. The machine shows the tape, the data pointer and the place in
the source where the next command stands.

The machine would break down if its data pointer were off the tape, or if a cell held a number at
the end of the 64-bit range when it is changed.
-/

namespace EsotericHost.Brainfuck

/-- The name of the language. -/
def name : String := "brainfuck"

/-- The length of the reel unless an option says otherwise. -/
def defaultReelLength : Nat := 30000

/-- The longest reel, `2 ^ 24` cells. -/
def maxReelLength : Nat := 16777216

/-- Why a call of the machine fails. -/
inductive Trouble where
  | unmatched (bracket : Unmatched)
  | pastEnd (length position : Nat)
  | beforeStart (position : Nat)
  | notWaiting
  | broken (breakdown : Breakdown)
  deriving Repr, DecidableEq

/-- The wording of a failure. -/
def Trouble.upset : Trouble → Upset
  | unmatched (.closing position) => .fault (.badCode s!"unmatched ']' at position {position}")
  | unmatched (.opening position) => .fault (.badCode s!"unmatched '[' at position {position}")
  | pastEnd length position =>
    .fault (.runtime
      s!"data pointer moved past the end of the reel (length {length}) at position {position}")
  | beforeStart position =>
    .fault (.runtime s!"data pointer moved before the start of the reel at position {position}")
  | notWaiting => .fault .notSuspended
  | broken breakdown => breakdown.upset

/-- The machine between two calls. -/
structure State where
  cellType : CellType
  reelLength : Nat
  program : Program
  tape : Array Int
  pointer : Nat
  /-- The index of the next command. -/
  next : Nat
  waiting : Bool
  deriving Repr, DecidableEq

namespace State

/-- A machine without a program. -/
def new (cellType : CellType) (reelLength : Nat) : State :=
  ⟨cellType, reelLength, ⟨#[], 0⟩, Array.replicate reelLength 0, 0, 0, false⟩

/-- Where the next command stands in the source, or the end of the source. -/
def sourcePosition (s : State) : Nat :=
  match s.program.code[s.next]? with
  | some instruction => instruction.position
  | none => s.program.sourceLength

end State

/-- The cell type that the options choose. -/
def cellTypeOf (options : Options) : Except String CellType :=
  match options.string? "numType" with
  | none => .ok .uint8
  | some name =>
    match CellType.ofName? name with
    | some t => .ok t
    | none => .error s!"unknown numType '{name}'"

/-- The length of the reel that the options choose. -/
def reelLengthOf (options : Options) : Except String Nat :=
  match options.number? "reelLength" with
  | none => .ok defaultReelLength
  | some n =>
    if 1 ≤ n ∧ n ≤ maxReelLength then .ok n.toNat
    else .error s!"reelLength must be between 1 and {maxReelLength}, got {n}"

/-- The machine that the options choose. -/
def build (options : Options) : Except String State := do
  let cellType ← cellTypeOf options
  let reelLength ← reelLengthOf options
  return .new cellType reelLength

/-- A call of this machine. -/
abbrev Step := Act Trouble State

/-- Replaces the program and leaves everything else as it is. -/
def load (source : String) : Step Unit := fun s =>
  match Program.ofSource source with
  | .ok program => ⟨.ok (), { s with program }, []⟩
  | .error bracket => ⟨.error (.unmatched bracket), s, []⟩

/-- Clears the reel and goes to the first command. -/
def reset : Step Unit := fun s =>
  let tape := Array.replicate s.reelLength (0 : Int)
  let s := { s with tape, pointer := 0, next := 0, waiting := false }
  ⟨.ok (), s, [.notify (.memory s.tape), .notify (.dataPointer 0),
    .notify (.instructionPointer s.sourcePosition)]⟩

/-- Breaks down because the data pointer is off the tape. -/
def offTape {α : Type} : Step α := fun s =>
  Act.fail (.broken (.index s.tape.size s.pointer)) s

/-- The number in the cell under the data pointer. -/
def cell : Step Int := fun s =>
  match s.tape[s.pointer]? with
  | some value => ⟨.ok value, s, []⟩
  | none => offTape s

/-- Stores a value, wrapped, in the cell under the data pointer. -/
def store (value : Int) : Step Unit := fun s =>
  let value := s.cellType.wrap value
  if h : s.pointer < s.tape.size then
    ⟨.ok (), { s with tape := s.tape.set s.pointer value }, [.notify (.cell s.pointer value)]⟩
  else offTape s

/-- Adds to the cell under the data pointer. -/
def add (difference : Int) : Step Unit := do
  let value ← cell
  -- The sum is made in 64 bits before it is wrapped into the cell.
  if Word.holdsInt (value + difference) then store (value + difference)
  else Act.fail (.broken (if 0 ≤ difference then .addition else .subtraction))

/-- Puts the data pointer on a cell. -/
def moveTo (pointer : Nat) : Step Unit := fun s =>
  ⟨.ok (), { s with pointer }, [.notify (.dataPointer pointer)]⟩

/-- Goes on to the command after the one at the given index. -/
def goOnAfter (index : Nat) : Step Unit := fun s =>
  let s := { s with next := index + 1 }
  ⟨.ok (), s, [.notify (.instructionPointer s.sourcePosition)]⟩

/-- Goes on to the following command. -/
def goOn : Step Unit := fun s =>
  goOnAfter s.next s

/-- Carries out a command that does not wait. -/
def execute (instruction : Instruction) : Step Unit := do
  let s ← Act.get
  match instruction.op with
  | .right =>
    -- The move fails before the pointer or the place in the program changes.
    if s.reelLength ≤ s.pointer + 1 then Act.fail (.pastEnd s.reelLength instruction.position)
    else
      moveTo (s.pointer + 1)
      goOn
  | .left =>
    if s.pointer = 0 then Act.fail (.beforeStart instruction.position)
    else
      moveTo (s.pointer - 1)
      goOn
  | .increment =>
    add 1
    goOn
  | .decrement =>
    add (-1)
    goOn
  | .output =>
    let value ← cell
    Act.print (Text.single (Text.charOfCode value))
    goOn
  -- `step` waits at an input and does not come here with one.
  | .input => goOn
  | .opening close =>
    let value ← cell
    -- Both jumps go to the command after the partner.
    if value = 0 then goOnAfter close else goOn
  | .closing start =>
    let value ← cell
    if value = 0 then goOn else goOnAfter start

/-- One instruction. -/
def step : Step Outcome := fun s =>
  if s.waiting then ⟨.ok (.suspended .byte), s, []⟩
  else match s.program.code[s.next]? with
    | none => ⟨.ok .halted, s, []⟩
    | some instruction =>
      if instruction.op = .input then ⟨.ok (.suspended .byte), { s with waiting := true }, []⟩
      else (do execute instruction; return Outcome.progressed) s

/-- The number that an input stores: a byte, or the first character of a line. -/
def inputValue : Input → Int
  | .byte value => value.toInt
  | .line text => (Text.firstCode? text).getD 0

/-- Completes an input command. -/
def resume (input : Input) : Step Unit := fun s =>
  if s.waiting then (do store (inputValue input); goOn) { s with waiting := false }
  else Act.fail .notWaiting s

/-- The calls of the tape machine. -/
def machine : Machine State where
  capabilities _ := ⟨true, true, true, true⟩
  load source := (load source).asCall Trouble.upset
  reset := reset.asCall Trouble.upset
  step := step.asCall Trouble.upset
  resume input := (resume input).asCall Trouble.upset
  minify _ source := .ok (some (minify source))
  fromText _ text := .ok (some (ofText text))
  memory s := some s.tape
  portray _ := Notice.tapeUpdates

end EsotericHost.Brainfuck
