import EsotericHost.Host.Handling
import EsotericHost.Settings.Basic
import EsotericHost.Wire.Command
import EsotericHost.Wire.Event

/-!
# Messages to the host

A client sends commands as texts. A text that is no command is answered by one error and changes
nothing.
-/

namespace EsotericHost.Host

variable {σ : Type}

/-- The answer to a text that is no command. Why it is none is not told. -/
def malformed : Event :=
  .error "Malformed command"

/-- The events of a text sent to the host, and the host after it. -/
def handleMessage (c : Catalogue σ) (bound : Nat) (text : String) (h : Host σ) :
    Option (List Event × Host σ) :=
  match Wire.readCommand? text with
  | some command => h.handle c bound command
  | none => some ([malformed], h)

/-- The command that settings start a host with, if they name a language. -/
def bootCommand? (settings : HostSettings) : Option Command :=
  settings.language.map fun lang => .setLanguage lang settings.options

/-- The events of starting with the configured language, and the host after that. -/
def boot (c : Catalogue σ) (bound : Nat) (settings : HostSettings) (h : Host σ) :
    Option (List Event × Host σ) :=
  match bootCommand? settings with
  | some command => h.handle c bound command
  | none => some ([], h)

end EsotericHost.Host
