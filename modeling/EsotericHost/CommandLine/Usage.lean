/-!
# How the program is called

The commands of the program, the flags and operands that each of them takes, and the text that
explains them.
-/

namespace EsotericHost.CommandLine

/-- The commands. -/
inductive Verb where
  | serve
  | run
  | languages
  | minify
  | textToCode
  | config
  | help
  deriving Repr, DecidableEq

/-- The flags that take a value. -/
inductive Flag where
  | config
  | lang
  | input
  | option
  deriving Repr, DecidableEq

/-- The commands in the order in which they are explained. -/
def Verb.all : List Verb := [serve, run, languages, minify, textToCode, config, help]

/-- The word for a command. -/
def Verb.name : Verb → String
  | serve => "serve"
  | run => "run"
  | languages => "languages"
  | minify => "minify"
  | textToCode => "text-to-code"
  | config => "config"
  | help => "help"

/-- The command that a word stands for. -/
def Verb.ofName? (name : String) : Option Verb :=
  Verb.all.find? (·.name = name)

/-- What a command does. -/
def Verb.about : Verb → String
  | serve => "Speak the JSON-lines protocol over stdin/stdout"
  | run => "Run a program to completion"
  | languages => "List registered languages and what they support"
  | minify => "Strip a program down to its instructions"
  | textToCode => "Generate a program that prints the given text"
  | config => "Print the effective configuration as TOML"
  | help => "Print this message or the help of the given subcommand(s)"

/-- The long name of a flag. -/
def Flag.long : Flag → String
  | config => "config"
  | lang => "lang"
  | input => "input"
  | option => "option"

/-- The letter of a flag. -/
def Flag.letter? : Flag → Option Char
  | config => none
  | lang => some 'l'
  | input => some 'i'
  | option => some 'o'

/-- The flags that a command takes. -/
def Verb.flags : Verb → List Flag
  | serve => [.config, .lang, .option]
  | run => [.config, .lang, .input, .option]
  | minify | textToCode => [.config, .lang]
  | languages | config => [.config]
  | help => []

/-- The flags that may stand before the command. -/
def commonFlags : List Flag := [.config]

/-- Whether a command needs the flag for the language. -/
def Verb.needsLanguage : Verb → Bool
  | run | minify | textToCode => true
  | serve | languages | config | help => false

/-- An operand of a command. -/
structure Operand where
  name : String
  about : String
  /-- Whether it may be the empty text. -/
  mayBeEmpty : Bool
  required : Bool

/-- The operand that a command takes. -/
def Verb.operand? : Verb → Option Operand
  | run | minify => some ⟨"FILE", "Source file", false, true⟩
  | textToCode => some ⟨"TEXT", "Text the generated program should print", true, true⟩
  | help => some ⟨"COMMAND", "Print help for the subcommand(s)", true, false⟩
  | serve | languages | config => none

/-! ## Help -/

/-- What a flag means to a command. -/
def Flag.about (verb : Option Verb) : Flag → String
  | config => "Path to config file (overrides default search)"
  | lang =>
    if verb = some .serve then "Language to create before the first command (overrides config)"
    else "Language tag"
  | input => "Program input (defaults to stdin, read when first requested)"
  | option => "Language option as key=value; repeatable"

/-- The name of the value of a flag. -/
def Flag.valueName : Flag → String
  | config => "CONFIG"
  | lang => "LANG"
  | input => "INPUT"
  | option => "OPTIONS"

/-- The text of a row: its first column filled up to a width, and what it means. -/
def row (width : Nat) (entry : String × String) : String :=
  let padding := List.replicate (width - entry.1.length) ' '
  s!"  {entry.1}{String.ofList padding}  {entry.2}\n"

/-- Rows with their first columns equally wide. -/
def rows (entries : List (String × String)) : String :=
  let width := entries.foldl (fun width entry => max width entry.1.length) 0
  "".intercalate (entries.map (row width))

/-- The first column of a flag. -/
def Flag.column (flag : Flag) : String :=
  let letter := match flag.letter? with
    | some c => String.ofList ['-', c, ',', ' ']
    | none => "    "
  s!"{letter}--{flag.long} <{flag.valueName}>"

/-- The rows of flags. -/
def flagRows (verb : Option Verb) (flags : List Flag) : String :=
  rows (flags.map (fun flag => (flag.column, flag.about verb)) ++ [("-h, --help", "Print help")])

/-- The help of the whole program. -/
def overview : String :=
  "Esohost - Esoteric language interpreters behind a command/event protocol\n\n" ++
  "Usage: esohost [OPTIONS] <COMMAND>\n\nCommands:\n" ++
  rows (Verb.all.map fun verb => (verb.name, verb.about)) ++
  "\nOptions:\n" ++ flagRows none commonFlags

/-- The help of a command. -/
def Verb.helpText (verb : Verb) : String :=
  let lang := if verb.needsLanguage then " --lang <LANG>" else ""
  let options := if verb.flags.isEmpty then "" else " [OPTIONS]"
  let (operand, arguments) := match verb.operand? with
    | none => ("", "")
    | some o =>
      let mark := if o.required then s!"<{o.name}>" else s!"[{o.name}]..."
      (s!" {mark}", "Arguments:\n" ++ rows [(mark, o.about)] ++ "\n")
  let flags := if verb.flags.isEmpty then "" else "Options:\n" ++ flagRows (some verb) verb.flags
  s!"{verb.about}\n\nUsage: esohost {verb.name}{options}{lang}{operand}\n\n{arguments}{flags}"

end EsotericHost.CommandLine
