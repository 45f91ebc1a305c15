import EsotericHost.Befunge.Machine
import EsotericHost.Brainfuck.Machine
import EsotericHost.Element.Machine
import EsotericHost.Length.Machine

/-!
# The machines of the built-in languages

The states of the four machines as one type, so that a host can hold any of them, and the calls of
the machine that a state belongs to.
-/

namespace EsotericHost

/-- A machine of one of the built-in languages. -/
inductive Builtin where
  | befunge (s : Befunge.State)
  | brainfuck (s : Brainfuck.State)
  | element (s : Element.State)
  | length (s : Length.State)
  deriving DecidableEq

namespace Builtin

/-- The call of the machine that the state belongs to. -/
def choose {α : Type} (befunge : Act Upset Befunge.State α)
    (brainfuck : Act Upset Brainfuck.State α) (element : Act Upset Element.State α)
    (length : Act Upset Length.State α) : Act Upset Builtin α
  | .befunge s => (befunge s).mapState .befunge
  | .brainfuck s => (brainfuck s).mapState .brainfuck
  | .element s => (element s).mapState .element
  | .length s => (length s).mapState .length

/-- Something that each machine says about its state. -/
def ask {α : Type} (befunge : Befunge.State → α) (brainfuck : Brainfuck.State → α)
    (element : Element.State → α) (length : Length.State → α) : Builtin → α
  | .befunge s => befunge s
  | .brainfuck s => brainfuck s
  | .element s => element s
  | .length s => length s

/-- The calls of the built-in machines; the playfield machine draws its random directions from the
given row. -/
def machine (draw : Nat → Befunge.Direction) : Machine Builtin :=
  let befunge := Befunge.machine draw
  let brainfuck := Brainfuck.machine
  let element := Element.machine
  let length := Length.machine
  { capabilities :=
      ask befunge.capabilities brainfuck.capabilities element.capabilities length.capabilities
    load := fun source =>
      choose (befunge.load source) (brainfuck.load source) (element.load source)
        (length.load source)
    reset := choose befunge.reset brainfuck.reset element.reset length.reset
    step := choose befunge.step brainfuck.step element.step length.step
    resume := fun input =>
      choose (befunge.resume input) (brainfuck.resume input) (element.resume input)
        (length.resume input)
    minify := ask befunge.minify brainfuck.minify element.minify length.minify
    fromText := ask befunge.fromText brainfuck.fromText element.fromText length.fromText
    memory := ask befunge.memory brainfuck.memory element.memory length.memory
    portray := ask befunge.portray brainfuck.portray element.portray length.portray }

end Builtin

end EsotericHost
