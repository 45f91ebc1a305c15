import EsotericHost.Befunge.Instruction
import EsotericHost.Machine.Basic
import EsotericHost.Options
import EsotericHost.Text.Blank
import EsotericHost.Text.Scalar

/-!
# The playfield machine

A pointer walks over a playfield and works on one stack of 64-bit integers; an empty stack gives
zeros. A program may change its own playfield if an option allows it. The number of times that the
pointer may cross an edge can be limited.

One instruction chooses a direction at random. The machine takes the directions from a given row of
draws and counts how many it has used.

The machine would break down if its pointer were off the playfield when it runs, or if its count of
filled places were wrong.
-/

namespace EsotericHost.Befunge

/-- The name of the language. -/
def name : String := "befunge"

/-- Why a call of the machine fails. -/
inductive Trouble where
  | divisionByZero (x y : Nat)
  | modificationDisabled (x y : Nat)
  | outside (x y : Int64)
  | wrapLimit (limit : Nat)
  | notANumber (text : String)
  | notWaiting
  | broken (breakdown : Breakdown)
  deriving Repr, DecidableEq

/-- The wording of a failure. -/
def Trouble.upset : Trouble → Upset
  | divisionByZero x y => .fault (.runtime s!"division by zero at ({x}, {y})")
  | modificationDisabled x y =>
    .fault (.runtime s!"self-modification is disabled ('p' at ({x}, {y}))")
  | outside x y => .fault (.runtime s!"'p' target ({x}, {y}) is outside the grid")
  | wrapLimit limit => .fault (.runtime s!"wrap limit of {limit} exceeded")
  | notANumber text => .fault (.badInput s!"expected an integer, got '{text}'")
  | notWaiting => .fault .notSuspended
  | broken breakdown => breakdown.upset

/-- The machine between two calls. -/
structure State where
  debug : Bool
  wrapLimit : Option Nat
  selfModification : Bool
  /-- The field as it was loaded, and its count of characters that are not spaces. -/
  source : Field
  sourceFilled : Nat
  /-- The field as the program has changed it, and its count. -/
  grid : Field
  filled : Nat
  x : Nat
  y : Nat
  direction : Direction
  /-- The stack, its top first. -/
  stack : List Int64
  quoting : Bool
  halted : Bool
  /-- How often the pointer has crossed an edge. -/
  wraps : Nat
  waiting : Option InputKind
  /-- How many random directions have been used. -/
  draws : Nat
  deriving Repr, DecidableEq

/-- A machine without a program. -/
def State.new (debug : Bool) (wrapLimit : Option Nat) (selfModification : Bool) : State :=
  { debug, wrapLimit, selfModification
    source := .empty, sourceFilled := 0, grid := .empty, filled := 0
    x := 0, y := 0, direction := .right, stack := [], quoting := false, halted := false
    wraps := 0, waiting := none, draws := 0 }

/-- The limit on crossings that the options choose; zero stands for no limit. -/
def wrapLimitOf (options : Options) : Except String (Option Nat) :=
  match options.number? "wrapLimit" with
  | none => .ok none
  | some n =>
    if n < 0 then .error s!"wrapLimit must not be negative, got {n}"
    else .ok (if n = 0 then none else some n.toNat)

/-- The machine that the options choose. -/
def build (options : Options) : Except String State := do
  let wrapLimit ← wrapLimitOf options
  return .new (options.flag "debug") wrapLimit (options.flag "selfModification")

/-- A call of this machine. -/
abbrev Step := Act Trouble State

/-- An integer as the client sees it. -/
def shown (n : Int64) : Json := .ofInt n.toInt

/-- Puts a number on the stack. -/
def push (n : Int64) : Step Unit := do
  Act.modify fun s => { s with stack := n :: s.stack }
  Act.notify (.pushed none (shown n))

/-- Takes the top off the stack; an empty stack gives zero and no notice. -/
def pop : Step Int64 := do
  let s ← Act.get
  match s.stack with
  | [] => return 0
  | n :: rest =>
    Act.modify fun s => { s with stack := rest }
    Act.notify (.popped none (shown n))
    return n

/-- Moves the pointer one place on. The crossing that passes the limit is an error, which comes
after the move and without notice of it. -/
def advance : Step Unit := fun s =>
  match s.direction.move s.source.width s.source.height s.x s.y with
  | .error breakdown => ⟨.error (.broken breakdown), s, []⟩
  | .ok (x, y, crossed) =>
    -- A field one place wide is crossed by every move along its row.
    let s := { s with x, y, wraps := if crossed then s.wraps + 1 else s.wraps }
    match s.wrapLimit.filter fun limit => crossed && limit < s.wraps with
    | some limit => ⟨.error (.wrapLimit limit), s, []⟩
    | none => ⟨.ok (), s, [.notify (.position "x" x), .notify (.position "y" y)]⟩

/-- Turns the pointer. -/
def turn (direction : Direction) : Step Unit :=
  Act.modify fun s => { s with direction }

/-- Suspends the machine. -/
def await (kind : InputKind) : Step Outcome := do
  Act.modify fun s => { s with waiting := some kind }
  return .suspended kind

/-- The count of filled places after one of them has changed from a character to another. -/
def recount (filled : Nat) (old new : Char) : Except Breakdown Nat :=
  if old = ' ' ∧ new ≠ ' ' then .ok (filled + 1)
  else if old ≠ ' ' ∧ new = ' ' then
    if filled = 0 then .error .subtraction else .ok (filled - 1)
  else .ok filled

/-- Writes a character on the field at the place given on the stack. -/
def put : Step Unit := do
  let y ← pop
  let x ← pop
  let value ← pop
  let s ← Act.get
  -- The three numbers are gone by now, also if the change is refused.
  if ¬ s.selfModification then Act.fail (.modificationDisabled s.x s.y)
  else match s.grid.cell? x.toInt y.toInt with
    | none => Act.fail (.outside x y)
    | some old =>
      let new := Text.charOfCode value.toInt
      match recount s.filled old new with
      | .error breakdown => Act.fail (.broken breakdown)
      | .ok filled => Act.modify fun s => { s with grid := s.grid.set x.toInt y.toInt new, filled }

/-- Pushes the code point of the character at the place given on the stack, or zero for a place
outside the field. -/
def fetch : Step Unit := do
  let y ← pop
  let x ← pop
  let s ← Act.get
  push ((s.grid.cell? x.toInt y.toInt).elim 0 fun c => .ofNat c.toNat)

/-- Carries out an instruction that neither waits nor stops, up to the move that follows it. -/
def execute (draw : Nat → Direction) (instruction : Instruction) : Step Unit := do
  match instruction with
  | .digit n => push (.ofNat n)
  | .arithmetic operation =>
    let a ← pop
    let b ← pop
    let s ← Act.get
    match operation.result? b a with
    | some n => push n
    | none => Act.fail (.divisionByZero s.x s.y)
  | .negate =>
    let a ← pop
    push (if a = 0 then 1 else 0)
  | .turn d => turn d
  | .turnAtRandom => Act.modify fun s => { s with direction := draw s.draws, draws := s.draws + 1 }
  | .turnSideways =>
    let a ← pop
    turn (if a = 0 then .right else .left)
  | .turnUpright =>
    let a ← pop
    turn (if a = 0 then .down else .up)
  | .quote => Act.modify fun s => { s with quoting := true }
  | .dup =>
    let a ← pop
    push a
    push a
  | .swap =>
    let a ← pop
    let b ← pop
    push a
    push b
  | .drop =>
    let _ ← pop
  | .printNumber =>
    let a ← pop
    Act.print s!"{a} "
  | .printCharacter =>
    let a ← pop
    Act.print (Text.single (Text.charOfCode a.toInt))
  -- One move here and one after the instruction.
  | .bridge => advance
  | .put => put
  | .fetch => fetch
  -- `step` deals with the first three itself.
  | .inputNumber | .inputCharacter | .stop | .nothing => pure ()

/-- A character inside a string: its code point is pushed, unless it ends the string. -/
def quoted (c : Char) : Step Unit :=
  if c = '"' then Act.modify fun s => { s with quoting := false } else push (.ofNat c.toNat)

/-- The character under the pointer. -/
def here : Step Char := fun s =>
  match s.grid.cell? s.x s.y with
  | some c => ⟨.ok c, s, []⟩
  | none => ⟨.error (.broken (s.grid.missing s.x s.y)), s, []⟩

/-- One instruction, that of the character under the pointer. In debug mode each character but a
space is echoed first. -/
def step (draw : Nat → Direction) : Step Outcome := do
  let s ← Act.get
  if let some kind := s.waiting then return .suspended kind
  -- A field of spaces has no instruction, and a pointer on it would run for ever.
  if s.halted || s.filled = 0 then return .halted
  let c ← here
  if s.debug && c ≠ ' ' then Act.print s!"({s.x}, {s.y}) {c}\n"
  if s.quoting then
    quoted c
    advance
    return .progressed
  match Instruction.ofChar c with
  | .inputNumber => await .line
  | .inputCharacter => await .byte
  | .stop =>
    -- The instruction itself counts as progress; the next one finds the machine halted.
    Act.modify fun s => { s with halted := true }
    return .progressed
  | instruction =>
    execute draw instruction
    advance
    return .progressed

/-- Replaces the program. The field that the machine runs on stays until the next reset. -/
def load (source : String) : Step Unit :=
  let field := Field.ofSource source.toList
  Act.modify fun s => { s with source := field, sourceFilled := field.filled }

/-- Puts the loaded field in place and the pointer in its corner. -/
def reset : Step Unit := do
  Act.modify fun s =>
    { s with
      grid := s.source, filled := s.sourceFilled, x := 0, y := 0, direction := .right
      stack := [], quoting := false, halted := false, wraps := 0, waiting := none }
  Act.emit [.notify (.cleared none), .notify (.position "x" 0), .notify (.position "y" 0)]

/-- The number that an input pushes. A line answers the request for a number if it spells one, and
the request for a character by its first character, or by -1 if it is empty. -/
def inputValue : InputKind → Input → Except Trouble Int64
  | _, .byte value => .ok value
  | .byte, .line text => .ok (.ofInt ((Text.firstCode? text).getD (-1)))
  | .line, .line text =>
    match Decimal.readInt64? (Text.trimChars text.toList) with
    | some n => .ok (.ofInt n)
    | none => .error (.notANumber text)

/-- Completes an input instruction. The machine no longer waits even if the input is refused. -/
def resume (input : Input) : Step Unit := do
  let s ← Act.get
  match s.waiting with
  | none => Act.fail .notWaiting
  | some kind =>
    -- Before the value is looked at: an input that is refused ends the waiting too.
    Act.modify fun s => { s with waiting := none }
    match inputValue kind input with
    | .ok n =>
      push n
      advance
    | .error trouble => Act.fail trouble

/-- The calls of the playfield machine that draws its random directions from the given row. -/
def machine (draw : Nat → Direction) : Machine State where
  capabilities _ := ⟨true, true, false, false⟩
  load source := (load source).asCall Trouble.upset
  reset := reset.asCall Trouble.upset
  step := (step draw).asCall Trouble.upset
  resume input := (resume input).asCall Trouble.upset
  minify _ _ := .ok none
  fromText _ _ := .ok none
  memory _ := none
  portray _ := Notice.fieldUpdates

end EsotericHost.Befunge
