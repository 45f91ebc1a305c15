import EsotericHost.Settings.Tree
import EsotericHost.Yaml.Reader

/-!
# Settings in YAML

A settings file in the form of YAML has one document, or none, in which case it holds no settings.
Keys are texts, numbers or truth values. There are no settings for doubles that are not finite.
-/

namespace EsotericHost.Settings.Yaml

open EsotericHost.Yaml (Node)

/-- The key of a setting that a YAML key stands for. -/
def keyOfNode? : Node → Option String
  | .string s => some s
  | .real text => some text
  | .int n => some (toString n)
  | .bool b => some (toString b)
  | _ => none

mutual

/-- The tree that a YAML value stands for. -/
def ofNode? : Node → Option Tree
  | .bad | .null => some .nothing
  | .bool b => some (.bool b)
  | .int n => some (.int n)
  | .real text => (Decimal.readFloat? text.toList).map .float
  | .string s => some (.string s)
  | .list items => (ofItems? items).map .array
  | .map members => (ofMembers? [] members).map .table

/-- The trees that the items of a YAML list stand for. -/
def ofItems? : List Node → Option (List Tree)
  | [] => some []
  | v :: rest =>
    match ofNode? v, ofItems? rest with
    | some v, some rest => some (v :: rest)
    | _, _ => none

/-- The members of a table put together with those that the members of a YAML map stand for. -/
def ofMembers? (done : List (String × Tree)) : List (Node × Node) → Option (List (String × Tree))
  | [] => some done
  | (key, v) :: rest =>
    match keyOfNode? key, ofNode? v with
    | some key, some v => ofMembers? (Table.insert key v done) rest
    | _, _ => none

end

/-- The tree in a text. -/
def read? (text : String) : Option Tree :=
  match EsotericHost.Yaml.read? text with
  | none => none
  | some none => some (.table [])
  | some (some v) => ofNode? v

end EsotericHost.Settings.Yaml
