import EsotericHost.Settings.Layer
import EsotericHost.Toml.Printer

/-!
# Writing settings

The text of settings as a settings file. Settings that are not set have no line. An option whose
value a settings file cannot hold makes the whole impossible to write.
-/

namespace EsotericHost.Settings

/-- A number that is set, as a member of a table. -/
def numberMember? (key : String) (n : Nat) : Option (String × Toml) :=
  if n < Word.intBound then some (key, .int n) else none

/-- The settings of the host as members of a table. -/
def hostMembers? (s : HostSettings) : Option (List (String × Toml)) := do
  let language := (s.language.map fun lang => ("language", Toml.string lang)).toList
  let stepLimit ← match s.stepLimit with
    | none => some []
    | some n => (numberMember? "step_limit" n).map ([·])
  let capacity ← numberMember? "channel_capacity" s.channelCapacity
  let options ← Toml.ofJsonMembers? s.options.entries
  return language ++ stepLimit ++ [capacity, ("options", .table options)]

/-- The text of a settings file with the settings. -/
def print (s : Settings) : Except SettingsError String :=
  match hostMembers? s.host with
  | none => .error .unprintable
  | some members =>
    .ok (Toml.print [("log", .table [("filter", .string s.logFilter)]), ("host", .table members)])

end EsotericHost.Settings
