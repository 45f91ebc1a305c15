import EsotericHost.Catalogue.Basic
import EsotericHost.Host.Activity
import EsotericHost.Host.Request

/-!
# The host

A host owns one session at most and carries out operations on it: a run of the program to its end,
or a single step. An operation that needs input stays in flight while its request is open; the
client's next commands find it there.

The handling of a command is a computation of type `Handling`. It changes the host step by step and
may stop early, either because the command is refused or because the machine has crashed; what was
done before stays done. It has no answer at all if a run passes the bound on its instructions.
-/

namespace EsotericHost

/-- What the host can be asked to do with a program. -/
inductive Task where
  | run
  | step
  deriving Repr, DecidableEq

namespace Task

/-- The button that asks for the task. -/
def action : Task → String
  | run => "interpret"
  | step => "step"

/-- The label of the task while it is under way. -/
def label (lang : String) : Task → String
  | run => s!"Interpreting {lang}"
  | step => s!"Stepping {lang}"

end Task

/-- An operation in flight. -/
structure Operation where
  task : Task
  lang : String
  /-- The number of activities under way when it began. -/
  depth : Nat
  budget : Budget
  deriving Repr, DecidableEq

/-- How an operation ends. -/
inductive Ending where
  | halted
  | progressed
  | failed (e : HostError)
  deriving Repr, DecidableEq

/-- The error of an ending, if it is a failure. -/
def Ending.error? : Ending → Option HostError
  | .failed e => some e
  | .halted | .progressed => none

/-- The host between two commands, or in the middle of one. -/
structure Host (σ : Type) where
  /-- How many instructions a run may carry out. -/
  stepLimit : Option Nat
  session : Option (Session σ)
  /-- Code that is to be loaded when the machine is free. -/
  held : Option String
  activity : Activity
  /-- The request that waits for an answer. -/
  request : Option InputKind
  operation : Option Operation
  /-- The events of the command that is being handled. -/
  transcript : Transcript

/-- A host without a language. -/
def Host.new {σ : Type} (stepLimit : Option Nat) : Host σ :=
  { stepLimit, session := none, held := none, activity := .idle, request := none
    operation := none, transcript := #[] }

/-- Why the handling of a command stops early. -/
inductive Stop where
  | refused (e : HostError)
  | crashed (message : Crash)
  deriving Repr, DecidableEq

/-- A part of the handling of a command. -/
def Handling (σ α : Type) : Type := Host σ → Option (Except Stop α × Host σ)

namespace Handling

variable {σ α β : Type}

/-- Does nothing and answers with a value. -/
protected def pure (a : α) : Handling σ α :=
  fun h => some (.ok a, h)

/-- Does one part and then, unless it stops, another. -/
protected def bind (m : Handling σ α) (f : α → Handling σ β) : Handling σ β :=
  fun h =>
    match m h with
    | none => none
    | some (.ok a, h) => f a h
    | some (.error stop, h) => some (.error stop, h)

instance : Monad (Handling σ) where
  pure := Handling.pure
  bind := Handling.bind

/-- The host. -/
def get : Handling σ (Host σ) :=
  fun h => some (.ok h, h)

/-- Changes the host. -/
def modify (f : Host σ → Host σ) : Handling σ Unit :=
  fun h => some (.ok (), f h)

/-- Stops early. -/
def stop (s : Stop) : Handling σ α :=
  fun h => some (.error s, h)

/-- Refuses the command. -/
def refuse (e : HostError) : Handling σ α :=
  stop (.refused e)

/-- Goes on with the value of a result, or refuses the command. -/
def ofExcept : Except HostError α → Handling σ α
  | .ok a => pure a
  | .error e => refuse e

/-- Adds an event. -/
def emit (e : Event) : Handling σ Unit :=
  modify fun h => { h with transcript := h.transcript.push e }

/-- Prints a text. -/
def print (text : String) : Handling σ Unit :=
  emit (.print text)

/-- Reports an error. -/
def report (e : HostError) : Handling σ Unit :=
  emit (.error e.message)

/-- Makes a label the innermost one. -/
def pushLabel (label : String) : Handling σ Unit :=
  modify fun h =>
    let activity := h.activity.push label
    { h with activity, transcript := h.transcript.push activity.report }

/-- Takes the innermost label away. -/
def popLabel : Handling σ Unit :=
  modify fun h =>
    let activity := h.activity.pop
    { h with activity, transcript := h.transcript.push activity.report }

/-- Takes labels away until a depth is reached. -/
def unwindLabels (depth : Nat) : Handling σ Unit :=
  modify fun h =>
    { h with
      activity := h.activity.unwind depth
      transcript := h.transcript ++ h.activity.unwindReports depth }

/-- A fault is an answer that the host deals with; a crash stops the handling. -/
def settle : Except Upset α → Handling σ (Except Fault α)
  | .ok a => pure (.ok a)
  | .error (.fault f) => pure (.error f)
  | .error (.crash message) => stop (.crashed message)

/-- Makes a call of a machine that is not in use yet. -/
def callOn (m : Machine σ) (act : Act Upset σ α) (s : Session σ) :
    Handling σ (Except Fault α × Session σ) := do
  let h ← get
  let (result, s, transcript) := s.call m act h.transcript
  modify fun h => { h with transcript }
  let answer ← settle result
  return (answer, s)

/-- Makes a call of the machine in use, whose session is given. -/
def call (m : Machine σ) (act : Act Upset σ α) (s : Session σ) : Handling σ (Except Fault α) := do
  let h ← get
  let (result, s, transcript) := s.call m act h.transcript
  -- The session keeps what the call did to it, also if the call fails.
  modify fun h => { h with session := some s, transcript }
  settle result

/-- Lets the machine in use, whose session is given, run for an operation. -/
def run (m : Machine σ) (bound : Nat) (op : Operation) (s : Session σ) :
    Handling σ (Except Fault Outcome) := fun h =>
  match s.run m bound op.budget h.transcript with
  | none => none
  | some (result, budget, s, transcript) =>
    settle result
      { h with session := some s, transcript, operation := some { op with budget } }

end Handling

end EsotericHost
