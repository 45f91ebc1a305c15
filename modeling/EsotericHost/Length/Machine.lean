import EsotericHost.Length.Program
import EsotericHost.Machine.Basic
import EsotericHost.Options
import EsotericHost.Text.Scalar

/-!
# The line machine

One stack of 64-bit integers and a line counter. Arithmetic wraps; division goes toward zero and
fails where the quotient does not exist or does not fit. The machine halts when it leaves the last
line behind.
-/

namespace EsotericHost.Length

/-- The name of the language. -/
def name : String := "length"

/-- Why a call of the machine fails; lines are counted from zero. -/
inductive Trouble where
  | underflow (line : Nat)
  | divisionByZero (line : Nat)
  | negativeJump (target : Int64) (line : Nat)
  | jumpOverflow (offset : Int64) (line : Nat)
  | noValueLine (line : Nat)
  | notWaiting
  deriving Repr, DecidableEq

/-- The wording of a failure, which counts lines from one. -/
def Trouble.fault : Trouble → Fault
  | underflow line => .underflow s!"line {line + 1}"
  | divisionByZero line => .runtime s!"division by zero on line {line + 1}"
  | negativeJump target line => .runtime s!"jump to negative line {target} from line {line + 1}"
  | jumpOverflow offset line =>
    .runtime s!"relative jump by {offset} from line {line + 1} overflows"
  | noValueLine line => .runtime s!"push on line {line + 1} has no value line after it"
  | notWaiting => .notSuspended

/-- The machine between two calls. -/
structure State where
  comments : Bool
  debug : Bool
  lines : Array Nat
  /-- The stack, its top first. -/
  stack : List Int64
  line : Nat
  waiting : Bool
  deriving Repr, DecidableEq

/-- The machine that the options choose. -/
def build (options : Options) : State :=
  ⟨options.flag "comments", options.flag "debug", #[], [], 0, false⟩

/-- A call of this machine. -/
abbrev Step := Act Trouble State

/-- An integer as the client sees it. -/
def shown (n : Int64) : Json := .ofInt n.toInt

/-- Puts a number on the stack. -/
def push (n : Int64) : Step Unit := do
  Act.modify fun s => { s with stack := n :: s.stack }
  Act.notify (.pushed none (shown n))

/-- Takes the top off the stack. -/
def pop : Step Int64 := do
  let s ← Act.get
  match s.stack with
  | [] => Act.fail (.underflow s.line)
  | n :: rest =>
    Act.modify fun s => { s with stack := rest }
    Act.notify (.popped none (shown n))
    return n

/-- Makes a line the next one. -/
def goTo (line : Nat) : Step Unit := do
  Act.modify fun s => { s with line }
  Act.notify (.line line)

/-- Jumps to a line that a program has computed. -/
def jumpTo (target : Int64) : Step Unit := do
  let s ← Act.get
  if target < 0 then Act.fail (.negativeJump target s.line)
  else goTo target.toInt.toNat

/-- The quotient toward zero, unless the divisor is zero or the quotient does not fit. -/
def quotient? (b a : Int64) : Option Int64 :=
  if a = 0 ∨ (b = Int64.minValue ∧ a = -1) then none else some (b / a)

/-- Replaces the two topmost numbers, `a` on top of `b`, by the result of an operation. -/
def binary (operation : Int64 → Int64 → Option Int64) : Step Unit := do
  let s ← Act.get
  let a ← pop
  let b ← pop
  match operation b a with
  | some result => push result
  | none => Act.fail (.divisionByZero s.line)

/-- Moves the bottom of the stack to the top; no notice is given of it. -/
def rollUp (stack : List Int64) : List Int64 :=
  match stack.getLast? with
  | some bottom => bottom :: stack.dropLast
  | none => []

/-- Moves the top of the stack to the bottom; no notice is given of it. -/
def rollDown : List Int64 → List Int64
  | [] => []
  | top :: rest => rest ++ [top]

/-- Carries out an instruction that does not wait, and goes on from it. -/
def execute (instruction : Instruction) : Step Unit := do
  let s ← Act.get
  let following := s.line + 1
  match instruction with
  -- `step` waits at an input and does not come here with one.
  | .input => goTo following
  | .add => binary (fun b a => some (b + a)); goTo following
  | .sub => binary (fun b a => some (b - a)); goTo following
  | .mul => binary (fun b a => some (b * a)); goTo following
  | .div => binary quotient?; goTo following
  | .dup =>
    let n ← pop
    push n
    push n
    goTo following
  | .skipIfZero =>
    let n ← pop
    goTo (if n = 0 then following + 1 else following)
  | .jump =>
    let target ← pop
    jumpTo target
  | .jumpBy =>
    let offset ← pop
    -- A line is no less than zero, so the sum cannot be too small for 64 bits.
    let target := s.line + offset.toInt
    if target < Word.intBound then jumpTo (.ofInt target)
    else Act.fail (.jumpOverflow offset s.line)
  | .printNumber =>
    let n ← pop
    Act.print (toString n.toInt)
    goTo following
  | .printCharacter =>
    let n ← pop
    Act.print (Text.single (Text.charOfCode n.toInt))
    goTo following
  | .rollUp =>
    Act.modify fun s => { s with stack := rollUp s.stack }
    goTo following
  | .rollDown =>
    Act.modify fun s => { s with stack := rollDown s.stack }
    goTo following
  | .swap =>
    let a ← pop
    let b ← pop
    push a
    push b
    goTo following
  | .drop =>
    let _ ← pop
    goTo following
  | .push =>
    -- The number pushed is the length of the next line, which is passed over.
    match s.lines[following]? with
    | some value =>
      push (.ofNat value)
      goTo (following + 1)
    | none => Act.fail (.noValueLine s.line)
  | .nothing => goTo following

/-- One instruction. In debug mode each is echoed before it is carried out. -/
def step : Step Outcome := do
  let s ← Act.get
  if s.waiting then return .suspended .byte
  match s.lines[s.line]? with
  | none => return .halted
  | some length =>
    let instruction := Instruction.ofLength length
    -- An input is echoed when it is met, not again when it is completed.
    if s.debug then Act.print s!"[line {s.line + 1}] {instruction.name}\n"
    if instruction = .input then
      Act.modify fun s => { s with waiting := true }
      return .suspended .byte
    execute instruction
    return .progressed

/-- Replaces the program and leaves everything else as it is. -/
def load (source : String) : Step Unit :=
  Act.modify fun s => { s with lines := (lengths s.comments source.toList).toArray }

/-- Clears the stack and goes to the first line. -/
def reset : Step Unit := do
  Act.modify fun s => { s with stack := [], waiting := false }
  Act.notify (.cleared none)
  goTo 0

/-- The number that an input pushes: a byte, or the first character of a line. -/
def inputValue : Input → Int64
  | .byte value => value
  | .line text => .ofInt ((Text.firstCode? text).getD 0)

/-- Completes an input instruction. -/
def resume (input : Input) : Step Unit := do
  let s ← Act.get
  if s.waiting then
    Act.modify fun s => { s with waiting := false }
    push (inputValue input)
    goTo (s.line + 1)
  else Act.fail .notWaiting

/-- The calls of the line machine. -/
def machine : Machine State where
  capabilities _ := ⟨true, true, false, true⟩
  load source := (load source).asCall (Upset.fault ∘ Trouble.fault)
  reset := reset.asCall (Upset.fault ∘ Trouble.fault)
  step := step.asCall (Upset.fault ∘ Trouble.fault)
  resume input := (resume input).asCall (Upset.fault ∘ Trouble.fault)
  minify _ _ := .ok none
  fromText _ text := .ok (some (ofText text))
  memory _ := none
  portray _ := Notice.lineUpdates

end EsotericHost.Length
