import EsotericHost.Settings.File
import EsotericHost.Settings.Lenient
import EsotericHost.Settings.Place
import EsotericHost.Variables.Basic

/-!
# Layers of settings

Settings come in layers: the defaults, a file over them, and over both the variables whose names
start with `ESOHOST_`, in capitals or not. In the name of a variable two underscores stand for the
dot that parts a group from a setting in it. `Settings.load` puts the layers over each other and
reads the settings off the tree that comes out.
-/

namespace EsotericHost

/-- Why there are no settings, or no text of them. -/
inductive SettingsError where
  | missing (path : String)
  | unreadable
  | invalid
  | noCapacity
  | noStepLimit
  | unprintable
  deriving Repr, DecidableEq

/-- What the error says. -/
def SettingsError.message : SettingsError → String
  | missing path => s!"Config file not found: {path}"
  | unreadable => "Failed to load configuration"
  | invalid => "Invalid configuration"
  | noCapacity => "host.channel_capacity must be at least 1"
  | noStepLimit => "host.step_limit must be at least 1 when set"
  | unprintable => "Failed to render configuration"

namespace Settings

/-- The tree with a value put over what stands at the place that a key names. -/
def overlay (tree : Tree) (entry : String × Tree) : Tree :=
  Tree.putAt entry.2 (Place.ofKey entry.1) tree

/-- The defaults that stand under every other layer. -/
def defaults : Tree :=
  .table [("host", .table [("channel_capacity", .int defaultChannelCapacity)]),
    ("log", .table [("filter", .string defaultLogFilter)])]

/-! ## Variables -/

/-- How the names of the variables start that hold settings, in small letters. -/
def variableMark : List Char := "esohost_".toList

/-- The name with a dot for every two underscores in a row. -/
def dotted : List Char → List Char
  | '_' :: '_' :: rest => '.' :: dotted rest
  | c :: rest => c :: dotted rest
  | [] => []

/-- The small letter of a capital one that a key may hold: a letter of ASCII, or the Kelvin sign,
which is a capital k. -/
def smallLetter (c : Char) : Char :=
  if c = '\u212A' then 'k' else c.toLower

/-- The key that the name of a variable stands for, if the variable holds a setting. -/
def keyOfVariable? (name : String) : Option String :=
  let cs := name.toList.map smallLetter
  if variableMark.isPrefixOf cs then some (String.ofList (dotted (cs.drop variableMark.length)))
  else none

/-- The value that the text of a variable stands for: a truth value, a number, or the text. -/
def valueOfVariable (text : String) : Tree :=
  let word := text.map Char.toLower
  if word = "true" then .bool true
  else if word = "false" then .bool false
  else match Decimal.readInt64? text.toList with
    | some n => .int n
    | none =>
      match Decimal.readFloat? text.toList with
      | some x => .float x
      | none => .string text

/-- The settings that variables hold. -/
def ofVariables (vars : Variables) : List (String × Tree) :=
  vars.entries.filterMap fun (name, text) =>
    (keyOfVariable? name).map fun key => (key, valueOfVariable text)

/-! ## Loading -/

/-- Settings that a host cannot work with are refused. -/
def check (s : Settings) : Except SettingsError Settings :=
  if s.host.channelCapacity = 0 then .error .noCapacity
  else if s.host.stepLimit = some 0 then .error .noStepLimit
  else .ok s

/-- The settings of a file, if there is one, with those of variables over them. -/
def load (file : Option File) (vars : Variables) : Except SettingsError Settings :=
  match (file.map File.members?).getD (some []) with
  | none => .error .unreadable
  | some members =>
    -- What comes later is put over what came before: the variables are last.
    match ofTree? ((members ++ ofVariables vars).foldl overlay defaults) with
    | none => .error .invalid
    | some s => check s

end Settings

end EsotericHost
