import EsotericHost.Json.Reader
import EsotericHost.Settings.Tree
import EsotericHost.Text.Blank

/-!
# Reading INI

A settings file in the form of INI has sections, each with a name in brackets, and in them keys with
texts as values; what stands before the first section belongs to the root. A comment has a whole
line, from its first character on. In a value, parts may stand between quotes or apostrophes, and a
backslash escapes.
-/

namespace EsotericHost.Settings.Ini

open Text (Read)

/-- What an escape of one letter stands for. -/
def unescape (c : Char) : Char :=
  match c with
  | '0' => Char.ofNat 0
  | 'a' => Char.ofNat 7
  | 'b' => Char.ofNat 8
  | 't' => '\t'
  | 'r' => '\r'
  | 'n' => '\n'
  | c => c

/-- The text up to a character at which it ends, without its escapes; the rest starts with that
character. It may also end with the whole text if `atEnd` says so, and a backslash there stays. -/
def readUntil (isEnd : Char → Bool) (atEnd : Bool) : Nat → List Char → List Char → Read (List Char)
  | 0, _, _ => none
  | fuel + 1, done, cs =>
    match cs with
    | [] => if atEnd then some (done.reverse, []) else none
    | c :: rest =>
      if isEnd c then some (done.reverse, cs)
      else if c ≠ '\\' then readUntil isEnd atEnd fuel (c :: done) rest
      else match rest with
        | [] => if atEnd then some ((c :: done).reverse, []) else none
        | '\n' :: rest => readUntil isEnd atEnd fuel done rest
        | 'x' :: rest =>
          match Json.readCode 4 rest with
          | some (c, rest) => readUntil isEnd atEnd fuel (c :: done) rest
          | none => none
        | c :: rest => readUntil isEnd atEnd fuel (unescape c :: done) rest

/-- The text up to one of the given characters. -/
def readUpTo (ends : List Char) (cs : List Char) : Read (List Char) :=
  readUntil (· ∈ ends) false (cs.length + 1) [] cs

/-- The rest of a line. -/
def readLineRest (cs : List Char) : Read (List Char) :=
  readUntil (fun c => c = '\n' || c = '\r') true (cs.length + 1) [] cs

/-- The text without the blanks at its end. -/
def trimEnd (cs : List Char) : List Char :=
  (cs.reverse.dropWhile Text.isBlank).reverse

/-- The parts of a value that stand between marks, and what follows them on the line, appended to
what has been read before. -/
def readParts : Nat → List Char → List Char → Read (List Char)
  | 0, _, _ => none
  | fuel + 1, done, cs =>
    let mark? := cs.head?.filter fun c => c = '"' || c = '\''
    match mark? with
    | some mark =>
      (readUpTo [mark] (cs.drop 1)).bind fun (part, rest) =>
        readParts fuel (done ++ part) (rest.drop 1)
    | none => (readLineRest cs).map fun (part, rest) => (done ++ trimEnd part, rest)

/-- A value, after the sign in front of it. Only blanks between marks, or after such a part, count
at its front. -/
def readValue (cs : List Char) : Read String :=
  let cs := cs.dropWhile fun c => Text.isBlank c && c ≠ '\n' && c ≠ '\r'
  match cs with
  | '"' :: _ | '\'' :: _ =>
    (readParts (cs.length + 1) [] cs).map fun (text, rest) => (String.ofList text, rest)
  | _ => (readLineRest cs).map fun (text, rest) => (String.ofList (Text.trimChars text), rest)

/-- What has been read of a file: the section that is open, the key whose value comes next, and the
members of the root. -/
structure Draft where
  inside : Option String
  key : String
  members : List (String × Tree)

/-- Opens a section. If it has been opened before, what was in it is gone. -/
def Draft.enter (d : Draft) (name : String) : Draft :=
  { d with inside := some name, members := Table.insert name (.table []) d.members }

/-- Gives the key its value. -/
def Draft.set (d : Draft) (value : String) : Draft :=
  match d.inside with
  | none => { d with key := "", members := Table.insert d.key (.string value) d.members }
  | some name =>
    let inner := ((Table.find? name d.members).getD .nothing).members
    let inner := Table.insert d.key (.string value) inner
    { d with key := "", members := Table.insert name (.table inner) d.members }

/-- The text after the blanks at its front. The flag says whether the text is at the start of a
line. -/
def skipBlanks : Bool → List Char → Bool × List Char
  | atStart, [] => (atStart, [])
  | atStart, c :: rest =>
    if Text.isBlank c then skipBlanks (c = '\n') rest else (atStart, c :: rest)

/-- The trimmed text, with the rest after it. -/
def trimmed (r : List Char × List Char) : String × List Char :=
  (String.ofList (Text.trimChars r.1), r.2)

/-- Reads on to the end of a file. -/
def readDraft : Nat → Bool → Draft → List Char → Option Draft
  | 0, _, _, _ => none
  | fuel + 1, atStart, d, cs =>
    let (atStart, cs) := skipBlanks atStart cs
    match cs with
    | [] => some d
    | '[' :: rest =>
      ((readUpTo [']'] rest).map trimmed).bind fun (name, rest) =>
        readDraft fuel false (d.enter name) (rest.drop 1)
    | c :: rest =>
      if c = ';' ∨ c = '#' then
        if atStart then readDraft fuel true d ((rest.dropWhile (· ≠ '\n')).drop 1) else none
      else if c = '=' ∨ c = ':' then
        -- The sign is left in front of the value when the key has been read.
        if d.key.isEmpty then none
        else (readValue rest).bind fun (value, rest) => readDraft fuel false (d.set value) rest
      else
        ((readUpTo ['=', ':'] cs).map trimmed).bind fun (key, rest) =>
          readDraft fuel false { d with key } rest

/-- The members of a file. -/
def read? (text : String) : Option (List (String × Tree)) :=
  let cs := text.toList
  (readDraft (cs.length + 1) true ⟨none, "", []⟩ cs).map Draft.members

end EsotericHost.Settings.Ini
