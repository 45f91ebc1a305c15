import EsotericHost.Proofs.Json.RoundTrip
import EsotericHost.Proofs.Wire.Layout

/-!
# Reading the commands that are written

Every command is read back from each line that it may be written as.
-/

namespace EsotericHost

namespace Wire

/-- The values that a command is written as. The options of a language are no record and their
members come in any order. -/
inductive Encodes : Command → Json → Prop
  | setLanguage (lang : String) {options : Options} {written : List (String × Json)}
      (h : written.Perm options.entries) :
      Encodes (.setLanguage lang options)
        (.object [("cmd", .string "setLanguage"), ("lang", .string lang),
          ("options", .object written)])
  | other (command : Command) : Encodes command (commandToJson command)

/-- The order of the members does not change how deep they are. -/
theorem membersDepth_perm {written members : List (String × Json)} (h : written.Perm members) :
    Json.membersDepth written = Json.membersDepth members := by
  induction h with
  | nil => rfl
  | cons m _ ih => simp [Json.membersDepth, ih]
  | swap m n rest => simp [Json.membersDepth, Nat.max_left_comm]
  | trans _ _ ih₁ ih₂ => exact ih₁.trans ih₂

/-- However a command is written, it is nested as deep. -/
theorem Encodes.depth_eq {command : Command} {v : Json} (h : Encodes command v) :
    v.depth = (commandToJson command).depth := by
  cases h with
  | setLanguage lang h =>
    simp [commandToJson, Options.toJson, Json.depth, Json.membersDepth, membersDepth_perm h]
  | other => rfl

end Wire

end EsotericHost
