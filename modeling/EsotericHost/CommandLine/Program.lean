import EsotericHost.CommandLine.Job
import EsotericHost.Settings.Printer
import EsotericHost.Variables.File

/-!
# The program

`program` is the whole program as a dialogue, from the words that it is called with to its exit
code. The settings are read first, whatever the job.
-/

namespace EsotericHost.CommandLine

variable {σ : Type}

/-- The variable that names the settings file. -/
def settingsPathVariable : String := "ESOHOST_CONFIG_PATH"

/-- The file of variables. -/
def variablesPath : String := ".env"

/-- The path of the settings file where none is named, up to its ending. -/
def settingsPath : String := "esohost"

/-- The settings of a result, or the failure that it is. -/
def settled {α : Type} : Except SettingsError α → Work α
  | .ok a => return a
  | .error e => throw e.message

/-- The settings file that is named. It must be there and have the ending of one of the forms. -/
def namedFile (path : String) : Work Settings.File := do
  match ← ask (.file path), Settings.Form.ofPath? path with
  | .missing, _ => throw (SettingsError.missing path).message
  | .text content, some form => return ⟨form, content⟩
  | .text _, none | .unreadable, _ => throw SettingsError.unreadable.message

/-- The first file with one of the endings. -/
def firstFile? : List (Settings.Form × String) → Work (Option Settings.File)
  | [] => return none
  | (form, ending) :: rest => do
    match ← ask (.file s!"{settingsPath}.{ending}") with
    | .text content => return some ⟨form, content⟩
    | .missing | .unreadable => firstFile? rest

/-- The settings file where none is named, if there is one. A file without an ending is of no form
and keeps the others from being looked for. -/
def defaultFile? : Work (Option Settings.File) := do
  match ← ask (.file settingsPath) with
  | .text _ => return none
  | .missing | .unreadable =>
    firstFile? (Settings.Form.all.flatMap fun form => form.endings.map (form, ·))

/-- Reads the settings. The settings file is the one of the call, or else the one that a variable
names. -/
def readSettings (path : Option String) : Work Settings := do
  let vars ← ask .environment
  let vars := match path with
    | some path => vars.insert settingsPathVariable path
    | none => vars
  -- What is set already stays, so the path of the call wins over the file.
  let vars := match ← ask (.file variablesPath) with
    | .text content => vars.join content
    | .missing | .unreadable => vars
  let file ← match vars.get? settingsPathVariable with
    | some path => some <$> namedFile path
    | none => defaultFile?
  settled (Settings.load file vars)

/-- Does a job. -/
def perform (c : Catalogue σ) (bound : Nat) (settings : Settings) : Job → Work Unit
  | .serve lang options => serve c bound (servedSettings settings.host lang options)
  | .run lang file input options => run c bound settings.host.stepLimit lang file input options
  | .languages => listLanguages c
  | .minify lang file => do
    let source ← readSource file
    convert c bound settings.host.stepLimit lang .minify ⟨some source, none⟩
      s!"{lang} produced no minified code"
  | .textToCode lang text =>
    convert c bound settings.host.stepLimit lang .textToCode ⟨none, some text⟩
      s!"{lang} produced no code"
  | .showSettings => do ask (.say (← settled settings.print))

/-- The exit code of a call that is wrong. -/
def usageExit : Nat := 2

/-- The program. Its value is its exit code. -/
def program (c : Catalogue σ) (bound : Nat) (words : List String) : Dialogue Nat :=
  match parse words with
  | .error (.wrong e) => do
    Dialogue.put (.complain s!"error: {e.message}\n\nFor more information, try '--help'.\n")
    return usageExit
  | .error (.help verb) => do
    Dialogue.put (.say ((verb.map Verb.helpText).getD overview))
    return 0
  | .ok invocation => do
    match ← (readSettings invocation.settings >>= fun settings =>
      perform c bound settings invocation.job).run with
    | .ok () => return 0
    | .error message =>
      Dialogue.put (.complain s!"Error: {message}\n")
      return 1

end EsotericHost.CommandLine
