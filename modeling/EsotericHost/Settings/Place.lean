import EsotericHost.Settings.Tree
import EsotericHost.Toml.Reader

/-!
# Keys that name places

A key of a settings file or of a variable names a place in the tree: names parted by dots, and after
each name any number of subscripts in brackets, as in `host.options.list[0].name`. A key that is
not of this form stands for itself.
-/

namespace EsotericHost.Settings.Place

open Text (Read)

/-- The name at the front of a text. -/
def readName (cs : List Char) : Read Step :=
  match cs.takeWhile Toml.isKeyChar with
  | [] => none
  | name => some (.key (String.ofList name), cs.dropWhile Toml.isKeyChar)

/-- The rest of a subscript after its opening bracket: an integer of 64 bits, which has no plus but
may have blanks around it. -/
def readSubscript (cs : List Char) : Read Step :=
  let (negative, body) := match Toml.skipSpaces cs with
    | '-' :: rest => (true, rest)
    | cs => (false, cs)
  match Decimal.takeDigits body with
  | ([], _) => none
  | (ds, rest) =>
    let n : Int := Decimal.ofDigits ds
    let index := if negative then -n else n
    match Toml.skipSpaces rest with
    | ']' :: rest => if Word.holdsInt index then some (.item index, rest) else none
    | _ => none

/-- The steps that follow a name up to the end of a key. Every step is at least one character. -/
def readSteps? : Nat → List Char → Option Place
  | _, [] => some []
  | fuel + 1, '.' :: rest =>
    (readName rest).bind fun (step, rest) => (readSteps? fuel rest).map (step :: ·)
  | fuel + 1, '[' :: rest =>
    (readSubscript rest).bind fun (step, rest) => (readSteps? fuel rest).map (step :: ·)
  | _, _ => none

/-- The place that a key names. -/
def ofKey (key : String) : Place :=
  let place? := (readName key.toList).bind fun (step, rest) =>
    (readSteps? rest.length rest).map (step :: ·)
  place?.getD [.key key]

end EsotericHost.Settings.Place
