import EsotericHost.Command
import EsotericHost.Json.Printer
import EsotericHost.Json.Skip
import EsotericHost.Wire.Record

/-!
# Commands on the wire

A command is a record with the tag `cmd`.
-/

namespace EsotericHost

/-- The button of the given name. -/
def Button.ofName? : String → Option Button
  | "reset" => some .reset
  | "minify" => some .minify
  | "interpret" => some .interpret
  | "step" => some .step
  | "textToCode" => some .textToCode
  | _ => none

namespace Wire

/-- The names of the buttons. -/
def buttonNames : List String := ["reset", "minify", "interpret", "step", "textToCode"]

/-- The button that a value names. -/
def button? (isNothing : Json → Bool) (v : Json) : Option Button :=
  (choice? isNothing buttonNames v).bind Button.ofName?

/-- The names of the arguments of a button. -/
def argumentNames : List String := ["code", "text"]

/-- The arguments of a button. -/
def buttonArgs? (v : Json) : Option ButtonArgs := do
  let fields ← fieldsOf? v
  let values ← fields.values? argumentNames
  match values with
  | [code, text] => some ⟨← optional string? code, ← optional string? text⟩
  | _ => none

/-- The arguments of a button that a text stands for. -/
def readButtonArgs? (text : String) : Option ButtonArgs :=
  (Json.readKnown? argumentNames text).bind buttonArgs?

/-- The options of a language. -/
def options? (v : Json) : Option Options :=
  (members? v).map Options.ofMembers

/-- The variants of a command. -/
def commandNames : List String := ["setLanguage", "loadCode", "buttonPress", "unblock"]

/-- The command of the given variant and fields. -/
def commandOf? (name : String) (fields : Fields) : Option Command := do
  match name with
  | "setLanguage" =>
    match ← fields.values? ["lang", "options"] with
    | [lang, options] =>
      some (.setLanguage (← required string? lang) (← defaulted .empty options? options))
    | _ => none
  | "loadCode" =>
    match ← fields.values? ["source"] with
    | [source] => some (.loadCode (← required string? source))
    | _ => none
  | "buttonPress" =>
    match ← fields.values? ["action", "args"] with
    | [action, args] =>
      some (.press (← required (button? isInnerNull) action)
        (← defaulted ⟨none, none⟩ buttonArgs? args))
    | _ => none
  | "unblock" =>
    match ← fields.values? ["value", "popStatus"] with
    | [value, popStatus] =>
      some (.unblock (← required any? value) (← defaulted true bool? popStatus))
    | _ => none
  | _ => none

/-- The command that a value stands for. -/
def command? (v : Json) : Option Command := do
  let (tag, fields) ← tagged? "cmd" v
  let name ← variant? commandNames tag
  commandOf? name fields

/-- The command that a text stands for. -/
def readCommand? (text : String) : Option Command :=
  (Json.read? Json.maxDepth text).bind command?

/-- A member for a value that may be missing. -/
def optionalMember (name : String) (value : Option Json) : List (String × Json) :=
  (value.map fun v => (name, v)).toList

/-- The arguments of a button as a value. -/
def buttonArgsToJson (args : ButtonArgs) : Json :=
  .object (optionalMember "code" (args.code.map .string) ++
    optionalMember "text" (args.text.map .string))

/-- The command as a value. -/
def commandToJson : Command → Json
  | .setLanguage lang options =>
    .object [("cmd", .string "setLanguage"), ("lang", .string lang), ("options", options.toJson)]
  | .loadCode source => .object [("cmd", .string "loadCode"), ("source", .string source)]
  | .press button args =>
    .object [("cmd", .string "buttonPress"), ("action", .string button.name),
      ("args", buttonArgsToJson args)]
  | .unblock value popStatus =>
    .object [("cmd", .string "unblock"), ("value", value), ("popStatus", .bool popStatus)]

end Wire

end EsotericHost
