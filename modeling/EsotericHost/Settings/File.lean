import EsotericHost.Json.Reader
import EsotericHost.Settings.Form.Ini
import EsotericHost.Settings.Form.Json5
import EsotericHost.Settings.Form.Ron
import EsotericHost.Settings.Form.Yaml
import EsotericHost.Toml.Reader

/-!
# Settings files

A settings file is written in one of several forms, which the ending of its path tells. Whatever the
form, it holds a table, whose members `File.members?` gives.
-/

namespace EsotericHost.Settings

/-- The form in which a settings file is written. -/
inductive Form where
  | toml
  | json
  | yaml
  | ini
  | ron
  | json5
  deriving Repr, DecidableEq

namespace Form

/-- The forms in the order in which a settings file is looked for. -/
def all : List Form := [toml, json, yaml, ini, ron, json5]

/-- The endings of the paths of files of a form, without the dot. -/
def endings : Form → List String
  | toml => ["toml"]
  | json => ["json"]
  | yaml => ["yaml", "yml"]
  | ini => ["ini"]
  | ron => ["ron"]
  | json5 => ["json5"]

/-- The tree that a text of the form stands for. -/
def read? : Form → String → Option Tree
  | toml, text => (Toml.read? text).map fun members => .table (Tree.ofTomlMembers members)
  | json, text => (Json.read? Json.maxDepth text).map fun v => Tree.ofJson v.canonical
  | yaml, text => Yaml.read? text
  | ini, text => (Ini.read? text).map .table
  | ron, text => Ron.read? text
  | json5, text => Json5.read? text

end Form

/-- What follows the last dot in the last part of a path. There is no ending without a dot, nor if
only the ending would be left. -/
def ending? (path : String) : Option String :=
  let name := path.toList.reverse.takeWhile (· ≠ '/')
  match name.dropWhile (· ≠ '.') with
  | _ :: _ :: _ => some (String.ofList (name.takeWhile (· ≠ '.')).reverse)
  | _ => none

/-- The form of the file at a path. -/
def Form.ofPath? (path : String) : Option Form :=
  (ending? path).bind fun ending => all.find? (ending ∈ ·.endings)

/-- A settings file: its form and what it holds. -/
structure File where
  form : Form
  text : String

/-- The members of the table in a file. A byte order mark at its front is passed over. -/
def File.members? (file : File) : Option (List (String × Tree)) :=
  match file.form.read? (String.ofList (Text.dropMark file.text.toList)) with
  | some (.table members) => some members
  | _ => none

end EsotericHost.Settings
