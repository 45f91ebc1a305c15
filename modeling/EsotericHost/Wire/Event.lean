import EsotericHost.Event
import EsotericHost.Json.Printer
import EsotericHost.Json.Reader
import EsotericHost.Wire.Command

/-!
# Events on the wire

An event is a record with the tag `event`, and an update of a machine one with the tag `kind`.
-/

namespace EsotericHost.Wire

/-! ## Writing -/

/-- An array of integers as a value. -/
def intsToJson (values : Array Int) : Json :=
  .array (values.toList.map Json.ofInt)

/-- The name of what happens to a stack. -/
def stackChangeName : StackChange → String
  | .push => "push"
  | .pop => "pop"
  | .empty => "empty"

/-- The name of what happens to an entry. -/
def entryChangeName : EntryChange → String
  | .set => "set"
  | .delete => "delete"

/-- The update as a value. -/
def updateToJson : Update → Json
  | .instructionPointer value =>
    .object [("kind", .string "instructionPointer"), ("value", .ofNat value)]
  | .dataPointer value => .object [("kind", .string "dataPointer"), ("value", .ofNat value)]
  | .data index value =>
    .object [("kind", .string "data"), ("index", .ofNat index), ("value", .ofInt value)]
  | .allData values => .object [("kind", .string "allData"), ("values", intsToJson values)]
  | .stack name change value =>
    .object ([("kind", .string "stack")] ++ optionalMember "stack" (name.map .string) ++
      [("action", .string (stackChangeName change))] ++ optionalMember "value" value)
  | .entry table key change value =>
    .object [("kind", .string "object"), ("name", .string table), ("key", .string key),
      ("action", .string (entryChangeName change)), ("value", value)]

/-- The event as a value. -/
def eventToJson : Event → Json
  | .status label => .object [("event", .string "statusChanged"), ("label", .string label)]
  | .created lang visualize initialMemory =>
    .object ([("event", .string "created"), ("lang", .string lang),
      ("visualize", .bool visualize)] ++
      optionalMember "initialMemory" (initialMemory.map intsToJson))
  | .update u => .object [("event", .string "instrumentationUpdate"), ("update", updateToJson u)]
  | .request .byte => .object [("event", .string "requestByteInput")]
  | .request .line => .object [("event", .string "requestLineInput")]
  | .print text => .object [("event", .string "print"), ("text", .string text)]
  | .minified code => .object [("event", .string "minifiedCode"), ("code", .string code)]
  | .fromText lang code =>
    .object [("event", .string "textToCode"), ("lang", .string lang), ("code", .string code)]
  | .error message => .object [("event", .string "error"), ("message", .string message)]

/-- The event as a line of text. -/
def writeEvent (e : Event) : String :=
  (eventToJson e).compact

/-! ## Reading -/

/-- The kind of input that a value names. -/
def inputKind? (v : Json) : Option InputKind :=
  match choice? isNull ["byte", "line"] v with
  | some "byte" => some .byte
  | some "line" => some .line
  | _ => none

/-- What happens to a stack. -/
def stackChange? (v : Json) : Option StackChange :=
  match choice? isInnerNull ["push", "pop", "empty"] v with
  | some "push" => some .push
  | some "pop" => some .pop
  | some "empty" => some .empty
  | _ => none

/-- What happens to an entry. -/
def entryChange? (v : Json) : Option EntryChange :=
  match choice? isInnerNull ["set", "delete"] v with
  | some "set" => some .set
  | some "delete" => some .delete
  | _ => none

/-- The variants of an update. -/
def updateNames : List String :=
  ["instructionPointer", "dataPointer", "data", "allData", "stack", "object"]

/-- The update of the given variant and fields. -/
def updateOf? (name : String) (fields : Fields) : Option Update := do
  match name with
  | "instructionPointer" =>
    match ← fields.values? ["value"] with
    | [value] => some (.instructionPointer (← required nat? value))
    | _ => none
  | "dataPointer" =>
    match ← fields.values? ["value"] with
    | [value] => some (.dataPointer (← required nat? value))
    | _ => none
  | "data" =>
    match ← fields.values? ["index", "value"] with
    | [index, value] => some (.data (← required nat? index) (← required int? value))
    | _ => none
  | "allData" =>
    match ← fields.values? ["values"] with
    | [values] => some (.allData (← required ints? values))
    | _ => none
  | "stack" =>
    match ← fields.values? ["stack", "action", "value"] with
    | [stack, action, value] =>
      some (.stack (← optional string? stack) (← required stackChange? action)
        (← optional any? value))
    | _ => none
  | "object" =>
    match ← fields.values? ["name", "key", "action", "value"] with
    | [name, key, action, value] =>
      some (.entry (← required string? name) (← required string? key)
        (← required entryChange? action) (← required any? value))
    | _ => none
  | _ => none

/-- The update that a value stands for, given how its tag names the variant. -/
def update? (variantOf : List String → Json → Option String) (v : Json) : Option Update := do
  let (tag, fields) ← tagged? "kind" v
  let name ← variantOf updateNames tag
  updateOf? name fields

/-- The variants of an event. -/
def eventNames : List String :=
  ["statusChanged", "created", "instrumentationUpdate", "requestByteInput", "requestLineInput",
    "print", "minifiedCode", "textToCode", "error"]

/-- The event of the given variant and fields. -/
def eventOf? (name : String) (fields : Fields) : Option Event := do
  match name with
  | "statusChanged" =>
    match ← fields.values? ["label"] with
    | [label] => some (.status (← required string? label))
    | _ => none
  | "created" =>
    match ← fields.values? ["lang", "visualize", "initialMemory"] with
    | [lang, visualize, initialMemory] =>
      some (.created (← required string? lang) (← required bool? visualize)
        (← optional ints? initialMemory))
    | _ => none
  | "instrumentationUpdate" =>
    match ← fields.values? ["update"] with
    | [update] => some (.update (← required (update? innerVariant?) update))
    | _ => none
  | "requestByteInput" => (fields.values? []).map fun _ => .request .byte
  | "requestLineInput" => (fields.values? []).map fun _ => .request .line
  | "print" =>
    match ← fields.values? ["text"] with
    | [text] => some (.print (← required string? text))
    | _ => none
  | "minifiedCode" =>
    match ← fields.values? ["code"] with
    | [code] => some (.minified (← required string? code))
    | _ => none
  | "textToCode" =>
    match ← fields.values? ["lang", "code"] with
    | [lang, code] => some (.fromText (← required string? lang) (← required string? code))
    | _ => none
  | "error" =>
    match ← fields.values? ["message"] with
    | [message] => some (.error (← required string? message))
    | _ => none
  | _ => none

/-- The event that a value stands for. -/
def event? (v : Json) : Option Event := do
  let (tag, fields) ← tagged? "event" v
  let name ← variant? eventNames tag
  eventOf? name fields

/-- The event that a text stands for. -/
def readEvent? (text : String) : Option Event :=
  (Json.read? Json.maxDepth text).bind event?

end EsotericHost.Wire
