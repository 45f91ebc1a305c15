import EsotericHost.Command
import EsotericHost.Host.Basic

/-!
# Handling commands

What the host does for each command. Every command is checked before it changes anything, so a
command that is refused leaves no trace but its error.

An operation ends in `finish`, whatever the reason: its request and its labels go, a failure is
reported, and the closing line follows. Only then is code loaded that was held back while the
machine was busy. The host measures no time; where its closing line speaks of milliseconds it has
the letter `N`.
-/

namespace EsotericHost.Handling

variable {σ : Type}

/-- The session, or a refusal of the button that needs one. -/
def needSession (action : String) : Handling σ (Session σ) := do
  let h ← get
  match h.session with
  | some s => return s
  | none => refuse (.noLanguage action)

/-- Refuses the command if an operation is in flight. -/
def needIdle (lang : String) : Handling σ Unit := do
  let h ← get
  match h.operation with
  | some op => refuse (.busy lang op.task.action)
  | none => pure ()

/-- Loads the held code, if there is any and the machine is free. -/
def loadHeld (m : Machine σ) : Handling σ Unit := do
  let h ← get
  match h.operation, h.session, h.held with
  | none, some s, some source =>
    -- Taken before the load, so that code that does not load is not tried again.
    modify fun h => { h with held := none }
    let answer ← call m (Session.load m source) s
    match answer with
    | .ok () => pure ()
    | .error fault => report (.badCode s.lang fault)
  | _, _, _ => pure ()

/-- The closing line of a run. -/
def closingLine (exitCode : Nat) : String :=
  s!"\n... Execution terminated with exit code {exitCode} (N ms)"

/-- Reports how an operation ended. -/
def close (task : Task) (ending : Ending) : Handling σ Unit := do
  match ending.error? with
  | some e => report e
  | none => pure ()
  match task with
  | .run => print (closingLine (if ending.error?.isSome then 1 else 0))
  | .step => if ending = .progressed then pure () else print "Unable to complete step\n"

/-- Ends the operation in flight, if there is one. -/
def finish (m : Machine σ) (ending : Ending) : Handling σ Unit := do
  let h ← get
  match h.operation with
  | none => pure ()
  | some op =>
    modify fun h => { h with operation := none, request := none }
    unwindLabels op.depth
    -- The labels are gone before the report, and the held code waits until after it.
    close op.task ending
    loadHeld m

/-- The error that tells of an operation given up for another command. -/
def abandonment (op : Operation) (request : Option InputKind) (reason : String) : String :=
  let request := (request.map InputKind.name).getD "in-flight"
  s!"{op.lang} {op.task.action} abandoned by {reason}: pending {request} input request dropped"

/-- Gives up the operation in flight; answers whether there was one. -/
def abandon (reason : String) : Handling σ Bool := do
  let h ← get
  match h.operation with
  | none => return false
  | some op =>
    modify fun h => { h with operation := none, request := none }
    unwindLabels op.depth
    -- `h` is the host as it was, so the error still names the request.
    emit (.error (abandonment op h.request reason))
    return true

/-- Leaves the operation in flight until input of a kind comes. -/
def suspend (m : Machine σ) (kind : InputKind) : Handling σ Unit := do
  let h ← get
  match Request.ask h.request kind with
  | .ok kind =>
    modify fun h => { h with request := some kind }
    pushLabel kind.label
    emit (.request kind)
  -- Not met with a consistent host: its machine works only when no request is open.
  | .error e => finish m (.failed e)

/-- Goes on with the operation after an instruction, or after a run of them. -/
def conclude (m : Machine σ) (lang : String) : Except Fault Outcome → Handling σ Unit
  | .ok (.suspended kind) => suspend m kind
  | .ok .halted => finish m .halted
  | .ok .progressed => finish m .progressed
  | .error fault => finish m (.failed (.failed lang fault))

/-- Lets the machine work on the operation in flight. -/
def drive (m : Machine σ) (bound : Nat) : Handling σ Unit := do
  let h ← get
  match h.operation, h.session with
  | some op, some s =>
    match op.task with
    | .run => conclude m s.lang (← run m bound op s)
    | .step => conclude m s.lang (← call m m.step s)
  | _, _ => pure ()

/-- Begins an operation. -/
def begin (task : Task) (lang : String) : Handling σ Unit := do
  modify fun h =>
    { h with operation := some ⟨task, lang, h.activity.depth, .fresh h.stepLimit⟩ }
  pushLabel (task.label lang)

/-! ## The commands -/

/-- Replaces the session by a new one. Code held back for an operation that this abandons is
dropped; code held back because there was no language is loaded. -/
def setLanguage (c : Catalogue σ) (lang : String) (options : Options) : Handling σ Unit := do
  -- The new session is made before anything is given up for it.
  let s ← ofExcept (c.openSession lang options)
  let abandoned ← abandon "setLanguage"
  if abandoned then modify fun h => { h with held := none }
  let h ← get
  match h.held with
  | none => install s
  | some source =>
    modify fun h => { h with held := none }
    -- The session is not in place yet; a crash leaves the host with the old one.
    let (answer, s) ← callOn c.machine (Session.load c.machine source) s
    match answer with
    | .ok () => pure ()
    | .error fault => report (.badCode s.lang fault)
    install s
where
  /-- Puts the new session in place. -/
  install (s : Session σ) : Handling σ Unit := do
    emit (s.createdEvent c.machine)
    modify fun h => { h with session := some s }

/-- Loads code into a free machine, or holds it back. -/
def loadCode (m : Machine σ) (source : String) : Handling σ Unit := do
  let h ← get
  match h.operation, h.session with
  | none, some s =>
    let answer ← call m (Session.load m source) s
    match answer with
    | .ok () => pure ()
    | .error fault => refuse (.badCode s.lang fault)
  | _, _ => modify fun h => { h with held := some source }

/-- Gives up what is in flight, loads held code, and makes the machine ready to start. -/
def resetButton (m : Machine σ) : Handling σ Unit := do
  let s ← needSession Button.reset.name
  let _ ← abandon "reset"
  loadHeld m
  -- The held code may have changed the session, so it is looked up again.
  let h ← get
  match h.session with
  | some s => let _ ← call m m.reset s
  | none => pure ()
  print s!"> interpreter reset --lang {s.lang}\n"

/-- Runs the program, or the given code, to its end. -/
def interpretButton (m : Machine σ) (bound : Nat) (code : Option String) : Handling σ Unit := do
  let s ← needSession Button.interpret.name
  needIdle s.lang
  print s!"\n> interpreter execute --lang {s.lang} --file ./userInput\n"
  begin .run s.lang
  match code with
  | none => drive m bound
  | some source =>
    let answer ← call m (Session.load m source) s
    match answer with
    | .ok () => drive m bound
    | .error fault => finish m (.failed (.badCode s.lang fault))

/-- Carries out one instruction. -/
def stepButton (m : Machine σ) (bound : Nat) : Handling σ Unit := do
  let s ← needSession Button.step.name
  if ¬ s.capabilities.step then refuse (.notSupported s.lang "step")
  else
    needIdle s.lang
    begin .step s.lang
    drive m bound

/-- The answer of a machine to a question that it may not support. -/
def needAnswer (supported : Bool) (answer : Except Crash (Option String))
    (lang capability : String) : Handling σ String :=
  if ¬ supported then refuse (.notSupported lang capability)
  else match answer with
    | .ok (some code) => pure code
    | .ok none => refuse (.notSupported lang capability)
    | .error crash => stop (.crashed crash)

/-- Shortens a program. -/
def minifyButton (m : Machine σ) (source : String) : Handling σ Unit := do
  let s ← needSession Button.minify.name
  let code ← needAnswer s.capabilities.minify (m.minify s.state source) s.lang "minify"
  print s!"> interpreter minify --lang {s.lang} --file ./userInput\n"
  emit (.minified code)

/-- Makes a program that prints a text. -/
def textToCodeButton (m : Machine σ) (text : String) : Handling σ Unit := do
  let s ← needSession Button.textToCode.name
  let code ← needAnswer s.capabilities.fromText (m.fromText s.state text) s.lang "text-to-code"
  print s!"> interpreter --from-text ./userText.txt --lang {s.lang}\n"
  emit (.fromText s.lang code)

/-- Answers the open request and goes on with the operation in flight. -/
def unblock (m : Machine σ) (bound : Nat) (value : Json) (popStatus : Bool) :
    Handling σ Unit := do
  let h ← get
  let (_, input) ← ofExcept (Request.resolve h.request value)
  -- From here on the request is answered, even if the machine has no use for the input.
  modify fun h => { h with request := none }
  if popStatus then popLabel
  match h.session with
  | none => refuse (.internal "input supplied with no interpreter loaded")
  | some s =>
    let answer ← call m (m.resume input) s
    match answer, h.operation with
    | .error fault, some _ => finish m (.failed (.failed s.lang fault))
    | .error fault, none => refuse (.failed s.lang fault)
    | .ok (), some op =>
      match op.task with
      | .run => drive m bound
      -- The instruction that asked is complete, and a step is one instruction.
      | .step => finish m .progressed
    | .ok (), none => pure ()

/-- Does what a command asks for. -/
def dispatch (c : Catalogue σ) (bound : Nat) : Command → Handling σ Unit
  | .setLanguage lang options => setLanguage c lang options
  | .loadCode source => loadCode c.machine source
  | .press .reset _ => resetButton c.machine
  | .press .minify args => minifyButton c.machine (args.code.getD "")
  | .press .interpret args => interpretButton c.machine bound args.code
  | .press .step _ => stepButton c.machine bound
  | .press .textToCode args => textToCodeButton c.machine (args.text.getD "")
  | .unblock value popStatus => unblock c.machine bound value popStatus

/-- Brings the host back to rest after a crash. -/
def recover (m : Machine σ) (message : Crash) : Handling σ Unit := do
  let e := HostError.internal (message.getD "interpreter panicked")
  let h ← get
  match h.operation with
  | some _ => finish m (.failed e)
  | none =>
    modify fun h => { h with request := none }
    report e

/-- Handles a command; an error or a crash ends as an event like everything else. -/
def handleCommand (c : Catalogue σ) (bound : Nat) (command : Command) : Handling σ Unit := fun h =>
  match dispatch c bound command h with
  | none => none
  | some (.ok (), h) => some (.ok (), h)
  | some (.error (.refused e), h) => report e h
  | some (.error (.crashed message), h) => recover c.machine message h

end EsotericHost.Handling

namespace EsotericHost.Host

variable {σ : Type}

/-- The events of a command, and the host after it. There is no answer if a run passes the bound on
its instructions, nor if the machine crashes once more while the host deals with a crash. -/
def handle (c : Catalogue σ) (bound : Nat) (command : Command) (h : Host σ) :
    Option (List Event × Host σ) :=
  match Handling.handleCommand c bound command h with
  | some (.ok (), h) => some (h.transcript.toList, { h with transcript := #[] })
  | _ => none

/-- The events of a list of commands, command by command, and the host after them. -/
def handleAll (c : Catalogue σ) (bound : Nat) : List Command → Host σ →
    Option (List (List Event) × Host σ)
  | [], h => some ([], h)
  | command :: rest, h =>
    match h.handle c bound command with
    | none => none
    | some (events, h) =>
      (h.handleAll c bound rest).map fun (more, h) => (events :: more, h)

end EsotericHost.Host
