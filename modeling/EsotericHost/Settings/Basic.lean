import EsotericHost.Options
import EsotericHost.Wire.Command

/-!
# Settings

What a host is started with: the language that it starts with, if any, its options, the limit on
the instructions of a run, and the capacity of its queues; beside that a filter for its log.
-/

namespace EsotericHost

/-- The settings of a host. -/
structure HostSettings where
  language : Option String
  stepLimit : Option Nat
  channelCapacity : Nat
  options : Options

/-- The settings of the program. -/
structure Settings where
  logFilter : String
  host : HostSettings

namespace Settings

/-- The log filter unless a setting says otherwise. -/
def defaultLogFilter : String := "esohost_core=info"

/-- The capacity of the queues unless a setting says otherwise. -/
def defaultChannelCapacity : Nat := 64

end Settings

/-- The settings of a host that a value stands for. -/
def HostSettings.ofJson? (v : Json) : Option HostSettings := do
  let fields ← Wire.fieldsOf? v
  match ← fields.values? ["language", "step_limit", "channel_capacity", "options"] with
  | [language, stepLimit, channelCapacity, options] =>
    some {
      language := ← Wire.optional Wire.string? language
      stepLimit := ← Wire.optional Wire.nat? stepLimit
      channelCapacity :=
        ← Wire.defaulted Settings.defaultChannelCapacity Wire.nat? channelCapacity
      options := ← Wire.defaulted .empty Wire.options? options }
  | _ => none

end EsotericHost
