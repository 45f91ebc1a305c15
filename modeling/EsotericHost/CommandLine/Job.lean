import EsotericHost.CommandLine.Arguments
import EsotericHost.CommandLine.Dialogue
import EsotericHost.CommandLine.Feed
import EsotericHost.Host.Stream
import EsotericHost.Settings.Basic

/-!
# Jobs

What each job of the command line does, as a dialogue. A job drives a host by the same commands
that a client sends, and shows what the events say: a served client is shown every event, a run
program has its prints on the one output and its errors on the other.

A job fails with a text.
-/

namespace EsotericHost.CommandLine

open EsotericHost (Feed)

variable {σ : Type}

/-- A dialogue that may fail. -/
abbrev Work := ExceptT String Dialogue

/-- Asks the surroundings. -/
def ask (q : Question) : Work q.Answer := ExceptT.lift (Dialogue.put q)

/-- Goes on with the answer of a host, which has none if a run passes the bound. -/
def answered {α : Type} (a : Option α) : Work α := ExceptT.lift (Dialogue.ofOption a)

/-- Writes a line to the first output. -/
def sayLine (text : String) : Work Unit := ask (.say (text ++ "\n"))

/-- Options with others set over them, one after the other. -/
def overlay (options : Options) (entries : List (String × Json)) : Options :=
  entries.foldl (fun options (key, value) => options.insert key value) options

/-- The text of a source file. -/
def readSource (path : String) : Work String := do
  match ← ask (.file path) with
  | .text source => return source
  | .missing | .unreadable => throw s!"Failed to read {path}"

/-! ## Serving -/

/-- Writes events, one a line. -/
def sayEvents (events : List Event) : Work Unit :=
  ask (.say ("".intercalate (events.map fun e => (Wire.eventToJson e).compact ++ "\n")))

/-- Serves the lines of the input; their number is bounded. -/
def serveInput (c : Catalogue σ) (bound : Nat) : Nat → Host σ → Work Unit
  | 0, _ => answered none
  | lines + 1, h => do
    match ← ask .nextLine with
    | none => return
    | some line =>
      match Host.lineText? (Text.dropReturn Host.carriageReturn line) with
      | none => throw Host.unreadableMessage
      | some text =>
        let (events, h) ← answered (h.serveText c bound text)
        sayEvents events
        serveInput c bound lines h

/-- The settings that a host serves with. A language given in the call has no options but those
given with it. -/
def servedSettings (settings : HostSettings) (lang : Option String)
    (options : List (String × Json)) : HostSettings :=
  match lang with
  | none => { settings with options := overlay settings.options options }
  -- The options in the settings are those of another language.
  | some lang => { settings with language := some lang, options := overlay .empty options }

/-- Serves a client. -/
def serve (c : Catalogue σ) (bound : Nat) (settings : HostSettings) : Work Unit := do
  let (events, h) ← answered (Host.boot c bound settings (.new settings.stepLimit))
  sayEvents events
  serveInput c bound bound h

/-! ## Running -/

/-- Shows an event to the one who runs a program. -/
def showEvent : Event → Work Unit
  | .print text => ask (.say text)
  | .error message => ask (.complain (message ++ "\n"))
  | _ => return

/-- Whether the event is an error. -/
def isError : Event → Bool
  | .error _ => true
  | _ => false

/-- The request that is open after events: the last one among them. -/
def openRequest? (events : List Event) : Option InputKind :=
  events.foldl (fun found e => match e with | .request kind => some kind | _ => found) none

/-- The input of the program: what has been fed so far, or all that the surroundings have. -/
def needFeed : Option Feed → Work Feed
  | some feed => return feed
  | none => do
    match ← ask .wholeInput with
    | some text => return .ofText text
    | none => throw "Failed to read program input from stdin"

/-- Shows events and answers the requests among them until there are none; their number is
bounded. Tells whether there was an error. -/
def answerRequests (c : Catalogue σ) (bound : Nat) :
    Nat → Option Feed → List Event → Host σ → Work Bool
  | 0, _, _, _ => answered none
  | requests + 1, feed, events, h => do
    events.forM showEvent
    let failed := events.any isError
    match openRequest? events with
    | none => return failed
    | some kind =>
      let (value, feed) := (← needFeed feed).next kind
      let (events, h) ← answered (h.handle c bound (.unblock value true))
      let later ← answerRequests c bound requests (some feed) events h
      return failed || later

/-- The commands that run a program. -/
def runCommands (lang : String) (options : Options) (source : String) : List Command :=
  [.setLanguage lang options, .loadCode source, .press .interpret ⟨none, none⟩]

/-- Runs a program to its end. -/
def run (c : Catalogue σ) (bound : Nat) (stepLimit : Option Nat) (lang file : String)
    (input : Option String) (options : List (String × Json)) : Work Unit := do
  let source ← readSource file
  let commands := runCommands lang (overlay .empty options) source
  let (events, h) ← answered (Host.handleAll c bound commands (.new stepLimit))
  let failed ← answerRequests c bound bound (input.map .ofText) events.flatten h
  sayLine ""
  if failed then throw s!"{lang} program terminated with errors"

/-! ## Questions about languages -/

/-- The text filled up to a width. -/
def padded (width : Nat) (text : String) : String :=
  text ++ String.ofList (List.replicate (width - text.length) ' ')

/-- The line that tells what a language supports. -/
def languageLine (lang : String) (can : Capabilities) : String :=
  let word (b : Bool) : String := if b then "true" else "false"
  s!"  {padded 10 lang} | input: {padded 5 (word can.input)} | step: {padded 5 (word can.step)}" ++
    s!" | minify: {padded 5 (word can.minify)} | textToCode: {word can.fromText}"

/-- Lists the languages. -/
def listLanguages (c : Catalogue σ) : Work Unit :=
  c.names.forM fun lang =>
    match c.openSession lang .empty with
    | .ok s => sayLine (languageLine lang s.capabilities)
    | .error e => throw e.message

/-- The message of the first error among events. -/
def firstError? (events : List Event) : Option String :=
  events.findSome? fun e => match e with | .error message => some message | _ => none

/-- The first code among events that was made from other code or from a text. -/
def firstCode? (events : List Event) : Option String :=
  events.findSome? fun e =>
    match e with
    | .minified code | .fromText _ code => some code
    | _ => none

/-- Presses one button of a language and writes the code that comes of it. -/
def convert (c : Catalogue σ) (bound : Nat) (stepLimit : Option Nat) (lang : String)
    (button : Button) (args : ButtonArgs) (nothing : String) : Work Unit := do
  let commands : List Command := [.setLanguage lang .empty, .press button args]
  let (events, _) ← answered (Host.handleAll c bound commands (.new stepLimit))
  match firstError? events.flatten, firstCode? events.flatten with
  | some message, _ => throw message
  | none, some code => sayLine code
  | none, none => throw nothing

end EsotericHost.CommandLine
