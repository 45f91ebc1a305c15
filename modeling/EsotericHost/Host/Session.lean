import EsotericHost.Host.Error
import EsotericHost.Machine.Basic
import EsotericHost.Machine.Budget
import EsotericHost.Options

/-!
# Sessions

A session is a machine in use: its state, the language and the options that it was made for, and
whether the client watches it. Each call of the machine adds its events to a transcript.

A run goes on until the machine halts, suspends or fails, or the budget is used up. A run without
a limit may never end, so `Session.run` also takes a bound on the instructions and has no answer if
the bound is too low; with a limit any bound above it will do.
-/

namespace EsotericHost

/-- A machine in use. -/
structure Session (σ : Type) where
  lang : String
  options : Options
  capabilities : Capabilities
  visualize : Bool
  state : σ

/-- A bound on the instructions of a run that no run comes near, `2 ^ 62`. -/
def ample : Nat := 4611686018427387904

namespace Session

variable {σ α : Type}

/-- The event that tells the client of a new machine. The memory is shown only to a client that
watches. -/
def createdEvent (m : Machine σ) (s : Session σ) : Event :=
  .created s.lang s.visualize (if s.visualize then m.memory s.state else none)

/-- The events of a call's effects. -/
def events (m : Machine σ) (s : Session σ) (effects : List Effect) : List Event :=
  effects.flatMap (Effect.events s.visualize (m.portray s.state))

/-- Makes a call of the machine and adds its events to the transcript. -/
def call (m : Machine σ) (act : Act Upset σ α) :
    Session σ → Transcript → Except Upset α × Session σ × Transcript
  | ⟨lang, options, capabilities, visualize, state⟩, out =>
    match act state with
    | ⟨result, state, effects⟩ =>
      let s : Session σ := ⟨lang, options, capabilities, visualize, state⟩
      (result, s, out ++ s.events m effects)

/-- Loads a program and makes it ready to run. If it does not load, nothing is reset. -/
def load (m : Machine σ) (source : String) : Act Upset σ Unit := do
  m.load source
  m.reset

/-- Carries out instructions until the machine halts, suspends or fails or the budget is used up,
or answers nothing if that takes more instructions than the bound. -/
def run (m : Machine σ) : Nat → Budget → Session σ → Transcript →
    Option (Except Upset Outcome × Budget × Session σ × Transcript)
  | 0, _, _, _ => none
  | bound + 1, budget, s, out =>
    match s.call m m.step out with
    | (.ok .progressed, s, out) =>
      -- Only instructions that make progress are charged; waiting costs nothing.
      let budget := budget.charge
      match budget.exceeded? with
      | some limit => some (.error (.fault (.stepLimit limit)), budget, s, out)
      | none => run m bound budget s out
    | (result, s, out) => some (result, budget, s, out)

end Session

end EsotericHost
