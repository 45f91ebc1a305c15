import EsotericHost.Element.Token
import EsotericHost.Element.Value
import EsotericHost.Machine.Basic
import EsotericHost.Options
import EsotericHost.Text.Scalar

/-!
# The token machine

A main stack of values, a control stack of truth values, and variables. A word of the source is
pushed on the main stack; conditions are made and used on the control stack. A counted loop that
runs has a frame that says how many rounds are left, this one included.

The machine would break down if it passed over a loop whose closing bracket is not known, or if a
frame held the lowest number of the 64-bit range when a round ends.
-/

namespace EsotericHost.Element

/-- The name of the language. -/
def name : String := "element"

/-- The two stacks. -/
inductive Stack where
  | main
  | control
  deriving Repr, DecidableEq

/-- The name of a stack. -/
def Stack.name : Stack → String
  | main => "main"
  | control => "control"

/-- Where in a program something happens. -/
inductive Place where
  | position (n : Nat)
  | ending
  deriving Repr, DecidableEq

/-- The wording of a place. -/
def Place.text : Place → String
  | position n => s!"position {n}"
  | ending => "end of program"

/-- Why a call of the machine fails. -/
inductive Trouble where
  | unmatched (bracket : Unmatched)
  | underflow (place : Place) (stack : Stack)
  | tooDeep (place : Place) (depth : Nat)
  | undefinedVariable (name : String) (place : Place)
  | divisionByZero (place : Place)
  | noRunningLoop (position : Nat)
  | notWaiting
  | broken (breakdown : Breakdown)
  deriving Repr, DecidableEq

/-- The wording of a failure. -/
def Trouble.upset : Trouble → Upset
  | unmatched b => .fault (.badCode s!"unmatched '{b.bracket}' at position {b.position}")
  | underflow place stack => .fault (.underflow s!"{place.text} ({stack.name} stack)")
  | tooDeep place depth => .fault (.underflow s!"{place.text} (main stack, depth {depth})")
  | undefinedVariable name place =>
    .fault (.runtime s!"undefined variable '{name}' at {place.text}")
  | divisionByZero place => .fault (.runtime s!"division by zero at {place.text}")
  | noRunningLoop position => .fault (.runtime s!"']' without a running loop at {position}")
  | notWaiting => .fault .notSuspended
  | broken breakdown => breakdown.upset

/-- A counted loop that runs: the index of its opening bracket, and the rounds that are left. -/
structure Frame where
  start : Nat
  rounds : Int
  deriving Repr, DecidableEq

/-- The machine between two calls. -/
structure State where
  autovivification : Bool
  program : Array Token
  /-- The index of the next token. -/
  next : Nat
  /-- The stacks, their tops first. -/
  main : List Value
  control : List Value
  /-- The variables, in the order of their names. -/
  bindings : List (String × Value)
  /-- The counted loops that run, innermost first. -/
  loops : List Frame
  waiting : Bool
  deriving DecidableEq

namespace State

/-- Where the machine is. -/
def place (s : State) : Place :=
  match s.program[s.next]? with
  | some token => .position token.position
  | none => .ending

/-- The position of the next token, or the one after the last token's. -/
def sourcePosition (s : State) : Nat :=
  match s.program[s.next]? with
  | some token => token.position
  | none => (s.program.back?.map (·.position + 1)).getD 0

/-- One of the stacks. -/
def stack (s : State) : Stack → List Value
  | .main => s.main
  | .control => s.control

/-- The state with one of the stacks replaced. -/
def withStack (s : State) (stack : Stack) (values : List Value) : State :=
  match stack with
  | .main => { s with main := values }
  | .control => { s with control := values }

end State

/-- The machine that the options choose. -/
def build (options : Options) : State :=
  { autovivification := options.flag "autovivification", program := #[], next := 0
    main := [], control := [], bindings := [], loops := [], waiting := false }

/-- A call of this machine. -/
abbrev Step := Act Trouble State

/-- Puts a value on a stack. -/
def pushOn (stack : Stack) (v : Value) : Step Unit := do
  Act.modify fun s => s.withStack stack (v :: s.stack stack)
  Act.notify (.pushed (some stack.name) v.toJson)

/-- Takes the top off a stack. -/
def popFrom (stack : Stack) : Step Value := do
  let s ← Act.get
  match s.stack stack with
  | [] => Act.fail (.underflow s.place stack)
  | v :: rest =>
    Act.modify fun s => s.withStack stack rest
    Act.notify (.popped (some stack.name) v.toJson)
    return v

/-- Puts a value on the main stack. -/
def push (v : Value) : Step Unit := pushOn .main v

/-- Takes the top off the main stack. -/
def pop : Step Value := popFrom .main

/-- Makes the token at an index the next one. -/
def goTo (index : Nat) : Step Unit := do
  Act.modify fun s => { s with next := index }
  let s ← Act.get
  Act.notify (.position "ip" s.sourcePosition)

/-- Stops the program for a reason that depends on the place. -/
def failHere {α : Type} (trouble : Place → Trouble) : Step α := do
  let s ← Act.get
  Act.fail (trouble s.place)

/-- The result for `a` on top of `b`, or nothing for a division by zero. -/
def Arithmetic.result? (operation : Arithmetic) (b a : Float) : Option Float :=
  match operation with
  | add => some (b + a)
  | sub => some (b - a)
  | mul => some (b * a)
  | power => some (b.pow a)
  | div => if a == 0.0 then none else some (b / a)
  | rem => if a == 0.0 then none else some (Decimal.remainder b a)

/-- Whether the comparison holds for `a` on top of `b`. -/
def Comparison.holds (comparison : Comparison) (b a : Value) : Bool :=
  match comparison with
  | less => b.toFloat < a.toFloat
  | greater => a.toFloat < b.toFloat
  | same => b.toText = a.toText

/-- Pushes a value several times. -/
def pushCopies (v : Value) : Nat → Step Unit
  | 0 => pure ()
  | n + 1 => do
    push v
    pushCopies v n

/-- The character of a number, or the code point of a text's first character. -/
def exchange : Value → Value
  | .number x => .text (Text.single (Text.charOfCode (Decimal.truncate x)))
  | .text s => .number (Float.ofInt ((Text.firstCode? s).getD 0))

/-- Gives a variable a value. -/
def assign (name : String) (v : Value) : Step Unit := do
  Act.notify (.binding name v.toJson)
  Act.modify fun s => { s with bindings := Table.insert name v s.bindings }

/-- Pushes the value of a variable. One without a value counts as empty if an option says so. -/
def lookUp (name : String) : Step Unit := do
  let s ← Act.get
  match Table.find? name s.bindings with
  | some v => push v
  | none =>
    if s.autovivification then push (.text "") else Act.fail (.undefinedVariable name s.place)

/-- Moves the value at a depth of the main stack to its top; no notice is given of it. -/
def raise (depth : Nat) : Step Unit := do
  let s ← Act.get
  match s.main[depth]? with
  | some v => Act.modify fun s => { s with main := v :: s.main.eraseIdx depth }
  | none => Act.fail (.tooDeep s.place depth)

/-- Carries out a command that does not wait. -/
def command (c : Command) : Step Unit := do
  match c with
  -- `step` waits at an input and does not come here with one.
  | .input => pure ()
  | .print =>
    let v ← pop
    Act.print v.toText
  | .assign =>
    let name ← pop
    let v ← pop
    assign name.toText v
  | .lookUp =>
    let name ← pop
    lookUp name.toText
  | .arithmetic operation =>
    let a ← pop
    let b ← pop
    match operation.result? b.toFloat a.toFloat with
    | some x => push (.number x)
    | none => failHere .divisionByZero
  | .compare comparison =>
    let a ← pop
    let b ← pop
    pushOn .control (.ofBool (comparison.holds b a))
  | .not =>
    let a ← popFrom .control
    pushOn .control (.ofBool (!a.truthy))
  | .and =>
    let a ← popFrom .control
    let b ← popFrom .control
    -- Both are taken off, whatever the first one is.
    pushOn .control (.ofBool (a.truthy && b.truthy))
  | .or =>
    let a ← popFrom .control
    let b ← popFrom .control
    pushOn .control (.ofBool (a.truthy || b.truthy))
  | .toControl =>
    let v ← pop
    pushOn .control v
  | .fromControl =>
    let v ← popFrom .control
    push v
  | .test =>
    let v ← pop
    pushOn .control (.ofBool v.truthy)
  | .copies =>
    let count ← pop
    let v ← pop
    -- With a count below one the value is gone.
    pushCopies v (Decimal.truncateNat count.toFloat)
  | .toNumber =>
    let v ← pop
    push (.number v.toFloat)
  | .textLength =>
    let v ← pop
    push (.number (Float.ofNat v.toText.length))
  | .splitFirst =>
    let v ← pop
    let cs := v.toText.toList
    -- An empty text gives two empty ones.
    push (.text (String.ofList cs.tail))
    push (.text (String.ofList (cs.take 1)))
  | .splitLast =>
    let v ← pop
    let cs := v.toText.toList
    push (.text (String.ofList cs.dropLast))
    push (.text (String.ofList cs.getLast?.toList))
  | .concat =>
    let a ← pop
    let b ← pop
    push (.text (b.toText ++ a.toText))
  | .character =>
    let v ← pop
    push (exchange v)
  | .raise =>
    let depth ← pop
    raise (Decimal.truncateNat depth.toFloat)

/-- Enters a counted loop, or passes it over if there is nothing to repeat; answers where to go. -/
def enterLoop (start : Nat) (close : Option Nat) : Step Nat := do
  let v ← pop
  let rounds := Decimal.truncate v.toFloat
  if 0 < rounds then
    Act.modify fun s => { s with loops := ⟨start, rounds⟩ :: s.loops }
    return start + 1
  else match close with
    | some close => return close + 1
    -- Every loop of a program that loads is closed, so this is never reached.
    | none => Act.fail (.broken .addition)

/-- Ends a round of a counted loop; answers where to go. -/
def endRound (start here position : Nat) : Step Nat := do
  let s ← Act.get
  match s.loops with
  | [] => Act.fail (.noRunningLoop position)
  | frame :: outer =>
    let rounds := frame.rounds - 1
    -- Rounds are counted down in 64 bits.
    if ¬ Word.holdsInt rounds then Act.fail (.broken .subtraction)
    else if 0 < rounds then
      Act.modify fun s => { s with loops := { frame with rounds } :: outer }
      return start + 1
    else
      Act.modify fun s => { s with loops := outer }
      return here + 1

/-- Carries out the token at an index, if it does not wait; answers where to go. -/
def execute (here : Nat) (token : Token) : Step Nat := do
  match token.op with
  | .word text =>
    push (.ofWord text)
    return here + 1
  | .command c =>
    command c
    return here + 1
  | .repeatStart close => enterLoop here close
  | .repeatEnd start => endRound start here token.position
  | .whileStart => return here + 1
  | .whileEnd start =>
    let v ← popFrom .control
    return if v.truthy then start + 1 else here + 1

/-- One token. -/
def step : Step Outcome := do
  let s ← Act.get
  if s.waiting then return .suspended .line
  match s.program[s.next]? with
  | none => return .halted
  | some token =>
    if token.op = .command .input then
      -- The index stays on the command until the input completes it.
      Act.modify fun s => { s with waiting := true }
      return .suspended .line
    let index ← execute s.next token
    goTo index
    return .progressed

/-- Replaces the program and leaves everything else as it is. -/
def load (source : String) : Step Unit :=
  match tokenize source.toList with
  | .ok program => Act.modify fun s => { s with program }
  | .error bracket => Act.fail (.unmatched bracket)

/-- Clears the stacks and the variables, and goes to the first token. -/
def reset : Step Unit := do
  let s ← Act.get
  Act.modify fun s =>
    { s with main := [], control := [], bindings := [], loops := [], waiting := false }
  Act.emit (s.bindings.map fun (name, _) => .notify (.binding name .null))
  Act.notify (.cleared (some Stack.main.name))
  Act.notify (.cleared (some Stack.control.name))
  goTo 0

/-- The text that an input pushes: a line, or the character of a byte. -/
def inputText : Input → String
  | .line text => text
  | .byte value => Text.single (Text.charOfCode value.toInt)

/-- Completes an input command. -/
def resume (input : Input) : Step Unit := do
  let s ← Act.get
  if s.waiting then
    Act.modify fun s => { s with waiting := false }
    push (.text (inputText input))
    goTo (s.next + 1)
  else Act.fail .notWaiting

/-- The calls of the token machine. -/
def machine : Machine State where
  capabilities _ := ⟨true, true, false, false⟩
  load source := (load source).asCall Trouble.upset
  reset := reset.asCall Trouble.upset
  step := step.asCall Trouble.upset
  resume input := (resume input).asCall Trouble.upset
  minify _ _ := .ok none
  fromText _ _ := .ok none
  memory _ := none
  portray _ := Notice.tokenUpdates

end EsotericHost.Element
