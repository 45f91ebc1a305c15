import EsotericHost.Machine.Act
import EsotericHost.Machine.Fault

/-!
# Machines

A machine runs programs of one language, one instruction at a time. An instruction that needs
input suspends instead of waiting, and `resume` completes it. The host knows a machine only by the
calls of `Machine`, so any table of such calls can be plugged in, also one that breaks down: a call
may crash, with or without a text that says why.
-/

namespace EsotericHost

/-- How an instruction ended. -/
inductive Outcome where
  | progressed
  | halted
  | suspended (kind : InputKind)
  deriving Repr, DecidableEq

/-- What a machine that breaks down leaves behind: a text that says why, or nothing. -/
abbrev Crash := Option String

/-- Why a call of a machine gave no answer. -/
inductive Upset where
  | fault (f : Fault)
  | crash (message : Crash)
  deriving Repr, DecidableEq

/-- How a machine leaves the bounds of its own memory or of its own numbers. -/
inductive Breakdown where
  | index (length n : Nat)
  | addition
  | subtraction
  | remainder
  deriving Repr, DecidableEq

namespace Breakdown

/-- The text that a breakdown leaves behind. -/
def message : Breakdown → String
  | index length n => s!"index out of bounds: the len is {length} but the index is {n}"
  | addition => "attempt to add with overflow"
  | subtraction => "attempt to subtract with overflow"
  | remainder => "attempt to calculate the remainder with a divisor of zero"

/-- A breakdown crashes the call in which it happens. -/
def upset (b : Breakdown) : Upset := .crash (some b.message)

end Breakdown

/-- What a machine can be asked for beside running a program. -/
structure Capabilities where
  input : Bool
  step : Bool
  minify : Bool
  fromText : Bool
  deriving Repr, DecidableEq

/-- The calls of the machines whose states are in `σ`. -/
structure Machine (σ : Type) where
  capabilities : σ → Capabilities
  /-- Replaces the program. -/
  load : String → Act Upset σ Unit
  /-- Makes the machine ready to run its program from the start. -/
  reset : Act Upset σ Unit
  /-- Carries out one instruction. -/
  step : Act Upset σ Outcome
  /-- Completes the instruction that waits for input. -/
  resume : Input → Act Upset σ Unit
  /-- A shorter program that does the same, if the language has such a notion. -/
  minify : σ → String → Except Crash (Option String)
  /-- A program that prints a text, if the language has such a notion. -/
  fromText : σ → String → Except Crash (Option String)
  /-- The memory, if the machine has one that can be shown. -/
  memory : σ → Option (Array Int)
  /-- How a notice is shown to the client. -/
  portray : σ → Notice → List Update

namespace Machine

variable {σ τ : Type}

/-- The machines of two families as one family. -/
def sum (m : Machine σ) (n : Machine τ) : Machine (σ ⊕ τ) where
  capabilities := Sum.elim m.capabilities n.capabilities
  load source := both (m.load source) (n.load source)
  reset := both m.reset n.reset
  step := both m.step n.step
  resume input := both (m.resume input) (n.resume input)
  minify := Sum.elim m.minify n.minify
  fromText := Sum.elim m.fromText n.fromText
  memory := Sum.elim m.memory n.memory
  portray := Sum.elim m.portray n.portray
where
  /-- The call of the family that the state belongs to. -/
  both {α : Type} (f : Act Upset σ α) (g : Act Upset τ α) : Act Upset (σ ⊕ τ) α
    | .inl s => (f s).mapState .inl
    | .inr s => (g s).mapState .inr

end Machine

/-- A call of a language's own machine, with its errors worded as faults or crashes. -/
def Act.asCall {ε σ α : Type} (describe : ε → Upset) (act : Act ε σ α) : Act Upset σ α :=
  fun s => (act s).mapError describe

end EsotericHost
