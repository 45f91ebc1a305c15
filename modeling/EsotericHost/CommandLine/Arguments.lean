import EsotericHost.CommandLine.Usage
import EsotericHost.Json.Reader

/-!
# Arguments

The words that the program is called with. They are read one after another; `Scan` is what has been
read so far. A flag takes its value from the same word or from the next one, and a word that looks
like a flag is no value. After `--` every word is an operand.

The flag for the settings file may stand before the command and after it; the one after it counts.
-/

namespace EsotericHost.CommandLine

/-- What the program is called to do. -/
inductive Job where
  | serve (lang : Option String) (options : List (String × Json))
  | run (lang file : String) (input : Option String) (options : List (String × Json))
  | languages
  | minify (lang file : String)
  | textToCode (lang text : String)
  | showSettings

/-- A call of the program. -/
structure Invocation where
  /-- The path of the settings file, if it is given. -/
  settings : Option String
  job : Job

/-- What is wrong with a call. -/
inductive UsageError where
  | noCommand
  | unknownCommand (word : String)
  | unknownFlag (word : String)
  | unexpected (word : String)
  | noValue (flag : Flag)
  | repeated (flag : Flag)
  | badOption (word : String)
  | emptyOperand (name : String)
  | noOperand (name : String)
  | noLanguage
  deriving Repr, DecidableEq

/-- What the error says. -/
def UsageError.message : UsageError → String
  | noCommand => "a subcommand is required"
  | unknownCommand word => s!"unrecognized subcommand '{word}'"
  | unknownFlag word => s!"unexpected argument '{word}' found"
  | unexpected word => s!"unexpected argument '{word}' found"
  | noValue flag => s!"a value is required for '--{flag.long}' but none was supplied"
  | repeated flag => s!"the argument '--{flag.long}' cannot be used multiple times"
  | badOption word => s!"expected key=value, got '{word}'"
  | emptyOperand name => s!"a value is required for <{name}> but none was supplied"
  | noOperand name => s!"the required argument <{name}> was not provided"
  | noLanguage => "the required argument --lang <LANG> was not provided"

/-- Why a call gives no invocation. -/
inductive Interruption where
  | wrong (e : UsageError)
  /-- The help is asked for, of a command or of the whole program. -/
  | help (verb : Option Verb)

/-! ## Words -/

/-- How a word looks. -/
inductive Word where
  | separator
  | long (name : String) (value : Option String)
  | short (letter : Char) (value : Option String)
  | operand

/-- The look of a word. A lone hyphen is an operand. -/
def Word.ofString (word : String) : Word :=
  match word.toList with
  | ['-', '-'] => .separator
  | '-' :: '-' :: rest =>
    let name := String.ofList (rest.takeWhile (· ≠ '='))
    match rest.dropWhile (· ≠ '=') with
    | _ :: value => .long name (some (String.ofList value))
    | [] => .long name none
  | ['-', c] => .short c none
  | '-' :: c :: '=' :: value => .short c (some (String.ofList value))
  | '-' :: c :: value => .short c (some (String.ofList value))
  | _ => .operand

/-- Whether a word can be the value of the flag before it. -/
def Word.isOperand : Word → Bool
  | operand => true
  | _ => false

/-- The option that a word sets: what stands before its first equals sign is the name. The value is
the JSON value that stands after it, or else the text itself. -/
def readOption? (word : String) : Option (String × Json) :=
  match word.toList.takeWhile (· ≠ '='), word.toList.dropWhile (· ≠ '=') with
  | c :: name, _ :: text =>
    let value := match Json.readWhole? Json.maxDepth text with
      | some v => v.canonical
      | none => .string (String.ofList text)
    some (String.ofList (c :: name), value)
  | _, _ => none

/-! ## Scanning -/

/-- What has been read of a call. -/
structure Scan where
  /-- The settings file given before the command. -/
  outer : Option String
  verb : Option Verb
  /-- The flag whose value comes next. -/
  awaiting : Option Flag
  /-- Whether all further words are operands. -/
  literal : Bool
  values : List (Flag × String)
  options : List (String × Json)
  operand : Option String

namespace Scan

/-- Nothing has been read. -/
def start : Scan := ⟨none, none, none, false, [], [], none⟩

/-- The value of a flag. -/
def value? (s : Scan) (flag : Flag) : Option String := s.values.lookup flag

/-- The flags that may stand here. -/
def flags (s : Scan) : List Flag :=
  match s.verb with
  | some verb => verb.flags
  | none => commonFlags

/-- Gives a flag its value. -/
def give (s : Scan) (flag : Flag) (value : String) : Except Interruption Scan :=
  let s := { s with awaiting := none }
  if flag = .option then
    -- The only flag that may be given more than once.
    match readOption? value with
    | some entry => .ok { s with options := s.options ++ [entry] }
    | none => .error (.wrong (.badOption value))
  else
    match s.value? flag with
    | some _ => .error (.wrong (.repeated flag))
    | none => .ok { s with values := (flag, value) :: s.values }

/-- Begins with a flag. Its value may be in the same word. -/
def begin (s : Scan) (word : String) (flag : Option Flag) (value : Option String) :
    Except Interruption Scan :=
  match flag, value with
  | none, _ => .error (.wrong (.unknownFlag word))
  | some flag, some value => s.give flag value
  | some flag, none => .ok { s with awaiting := some flag }

/-- Takes a word as the command. -/
def takeVerb (s : Scan) (word : String) : Except Interruption Scan :=
  if s.literal then .error (.wrong (.unexpected word))
  else match Verb.ofName? word with
    | some verb =>
      -- The command has flags of its own, which start with none given.
      .ok { s with verb := some verb, outer := s.value? .config, values := [] }
    | none => .error (.wrong (.unknownCommand word))

/-- Takes a word as the operand of the command. -/
def takeOperand (s : Scan) (verb : Verb) (word : String) : Except Interruption Scan :=
  match verb.operand?, s.operand with
  | some o, none =>
    if word.isEmpty && !o.mayBeEmpty then .error (.wrong (.emptyOperand o.name))
    else .ok { s with operand := some word }
  | _, _ => .error (.wrong (.unexpected word))

/-- Takes a word that is no flag. -/
def take (s : Scan) (word : String) : Except Interruption Scan :=
  match s.verb with
  | none => s.takeVerb word
  | some verb => s.takeOperand verb word

/-- Reads one more word. After `help` every word is the name of a command. -/
def push (s : Scan) (word : String) : Except Interruption Scan :=
  match s.awaiting with
  | some flag =>
    -- Not even `--` is a value here.
    if (Word.ofString word).isOperand then s.give flag word else .error (.wrong (.noValue flag))
  | none =>
    if s.literal || s.verb = some .help then s.take word
    else match Word.ofString word with
      | .separator => .ok { s with literal := true }
      | .operand => s.take word
      | .long name value =>
        if name = "help" then
          if value.isNone then .error (.help s.verb) else .error (.wrong (.unexpected word))
        else s.begin word (s.flags.find? (·.long = name)) value
      | .short letter value =>
        if letter = 'h' then .error (.help s.verb)
        else s.begin word (s.flags.find? (·.letter? = some letter)) value

/-- The language, for a command that needs it. -/
def needLanguage (s : Scan) : Except Interruption String :=
  match s.value? .lang with
  | some lang => .ok lang
  | none => .error (.wrong .noLanguage)

/-- The operand, for a command that needs it. -/
def needOperand (s : Scan) (name : String) : Except Interruption String :=
  match s.operand with
  | some operand => .ok operand
  | none => .error (.wrong (.noOperand name))

/-- The job of a command. -/
def job (s : Scan) : Verb → Except Interruption Job
  | .serve => .ok (.serve (s.value? .lang) s.options)
  | .run => do
    return .run (← s.needLanguage) (← s.needOperand "FILE") (s.value? .input) s.options
  | .languages => .ok .languages
  | .minify => do return .minify (← s.needLanguage) (← s.needOperand "FILE")
  | .textToCode => do return .textToCode (← s.needLanguage) (← s.needOperand "TEXT")
  | .config => .ok .showSettings
  | .help =>
    match s.operand with
    | none => .error (.help none)
    | some word =>
      match Verb.ofName? word with
      | some verb => .error (.help (some verb))
      | none => .error (.wrong (.unknownCommand word))

/-- The invocation, when all words have been read. -/
def finish (s : Scan) : Except Interruption Invocation :=
  match s.awaiting, s.verb with
  | some flag, _ => .error (.wrong (.noValue flag))
  | none, none => .error (.wrong .noCommand)
  | none, some verb =>
    -- The path after the command counts before the one in front of it.
    (s.job verb).map fun job => ⟨(s.value? .config).or s.outer, job⟩

end Scan

/-- The invocation that the words of a call stand for. -/
def parse (words : List String) : Except Interruption Invocation := do
  (← words.foldlM Scan.push .start).finish

end EsotericHost.CommandLine
