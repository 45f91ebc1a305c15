import EsotericHost.Text.Alphanumeric
import EsotericHost.Text.Blank
import EsotericHost.Text.Lines
import EsotericHost.Text.Read
import EsotericHost.Variables.Basic

/-!
# Files of variables

A file of variables has a line `NAME=value` for each. A value may have quotes and apostrophes
around any part of it, which a line ending does not close, and may name other variables after a
dollar sign. A number sign after a blank starts a comment. The blanks at the end of a line are not
part of it.

`join` adds the variables of such a file to those that are set already, which keep their values.
Reading ends at the first line that is no such line; what the lines before it set stays set.
-/

namespace EsotericHost.Variables

open Text (Read)

/-! ## Entries -/

/-- What the quotes of a text leave open at its end. -/
inductive Quoting where
  | plain
  | blank
  | escape
  | quoted (mark : Char)
  | quotedEscape (mark : Char)
  | comment
  deriving Repr, DecidableEq

/-- What is open after one more character. -/
def Quoting.after (q : Quoting) (c : Char) : Quoting :=
  match q with
  | .comment => .comment
  | .escape => .plain
  | .quotedEscape mark => .quoted mark
  | .quoted mark =>
    if c = '\\' then .quotedEscape mark else if c = mark then .plain else .quoted mark
  | .blank => if c = '#' then .comment else opened c
  | .plain => if Text.isBlank c && c ≠ '\n' && c ≠ '\r' then .blank else opened c
where
  /-- What a character opens that stands in no quotes. -/
  opened (c : Char) : Quoting :=
    if c = '\\' then .escape else if c = '"' ∨ c = '\'' then .quoted c else .plain

/-- What is open after a line, and the line up to the sign of a comment. -/
def Quoting.afterLine (q : Quoting) : List Char → Quoting × List Char
  | [] => (q, [])
  | c :: rest =>
    match q.after c with
    | .comment => (.comment, [])
    | q =>
      let (q, kept) := q.afterLine rest
      (q, c :: kept)

/-- An entry of a file: the lines up to one at whose end nothing is open, without the blanks at
both ends. -/
inductive Entry where
  | complete (text : List Char)
  | broken

/-- Whether the text is a comment from its first character that is not blank. -/
def isComment (cs : List Char) : Bool :=
  (cs.dropWhile Text.isBlank).head? = some '#'

/-- The entries of a list of lines, which have their line feeds. The first argument is the text of
the earlier lines that left something open, and the second is what they left open. A blank that
nothing follows, not even a line feed, counts as open. -/
def fileEntries : List Char → Quoting → List (List Char) → List Entry
  | [], _, [] => []
  | _, _, [] => [.broken]
  | before, q, line :: rest =>
    if isComment (before ++ line) then fileEntries [] .plain rest
    else
      match q.afterLine line with
      | (.plain, kept) | (.comment, kept) =>
        .complete (Text.trimChars (before ++ kept)) :: fileEntries [] .plain rest
      | (q, kept) => fileEntries (before ++ kept) q rest

/-! ## Values -/

/-- How far a reference to another variable has been read. -/
inductive Reference where
  | none
  | bare (name : List Char)
  | braced (name : List Char)
  deriving Repr, DecidableEq

/-- How far a value has been read. -/
structure Reading where
  output : List Char
  reference : Reference
  quote : Option Char
  escaped : Bool
  /-- A blank has ended the value. -/
  ended : Bool

/-- Reads one more character of a value. The names of other variables are looked up with
`lookup`. -/
def Reading.push (lookup : String → String) (r : Reading) (c : Char) : Option Reading :=
  let plain : Reading := { r with output := r.output ++ [c] }
  let referred (name : List Char) : List Char := r.output ++ (lookup (String.ofList name)).toList
  if r.ended then
    if c = ' ' ∨ c = '\t' then some r else none
  else if r.escaped then
    if c ∈ ['\\', '\'', '"', '$', ' '] then some { plain with escaped := false }
    -- The only escape that stands for another character.
    else if c = 'n' then some { r with output := r.output ++ ['\n'], escaped := false }
    else none
  else if r.quote = some '\'' then
    if c = '\'' then some { r with quote := none } else some plain
  else match r.reference with
    | .bare name =>
      if Text.isAlphanumeric c then some { r with reference := .bare (name ++ [c]) }
      else if c = '\x7b' ∧ name = [] then some { r with reference := .braced [] }
      else if c = '$' then some { r with output := referred name, reference := .bare [] }
      -- The character after a bare name counts as it is, also if it is a quote.
      else some { r with output := referred name ++ [c], reference := .none }
    | .braced name =>
      if c = '\x7d' then some { r with output := referred name, reference := .none }
      else some { r with reference := .braced (name ++ [c]) }
    | .none =>
      if c = '$' then some { r with reference := .bare [] }
      else if c = '\\' then some { r with escaped := true }
      else if r.quote = some '"' then
        if c = '"' then some { r with quote := none } else some plain
      else if c = '"' ∨ c = '\'' then some { r with quote := some c }
      else if c = ' ' ∨ c = '\t' then some { r with ended := true }
      else some plain

/-- Reads a value. A comment is no part of it. -/
def readValue (lookup : String → String) : List Char → Reading → Option String
  | [], r =>
    match r.quote, r.reference with
    | some _, _ => none
    -- Braces that are not closed make no value.
    | none, .braced _ => none
    | none, .bare name => some (String.ofList r.output ++ lookup (String.ofList name))
    | none, .none => some (String.ofList r.output)
  | c :: rest, r =>
    if r.ended ∧ c = '#' then readValue lookup [] r
    else match r.push lookup c with
      | some r => readValue lookup rest r
      | none => none

/-! ## Lines -/

/-- The name of a variable at the front of a text, and the text after it and the blanks there. -/
def readName (cs : List Char) : Read String :=
  let isInner (c : Char) : Bool := c.isAlphanum || c = '_' || c = '.'
  match cs with
  | c :: _ =>
    if c.isAlpha ∨ c = '_' then
      some (String.ofList (cs.takeWhile isInner), (cs.dropWhile isInner).dropWhile Text.isBlank)
    else none
  | [] => none

/-- The name of an entry and the text after its equals sign. The word `export` may stand in front
of the name. -/
def readAssignment (cs : List Char) : Read String :=
  match readName cs with
  | some (name, '=' :: rest) => some (name, rest)
  -- A variable may have the name `export` itself, if an equals sign follows it.
  | some ("export", rest) =>
    match readName rest with
    | some (name, '=' :: rest) => some (name, rest)
    | _ => none
  | _ => none

/-- The values that names stand for: those that are set, and beside them those of the file. -/
def valueOf (vars file : Variables) (name : String) : String :=
  match vars.get? name with
  | some value => value
  | none => (file.get? name).getD ""

/-- The variables after the entries of a file. -/
def joinEntries : List Entry → Variables → Variables → Variables
  | [], _, vars => vars
  | .broken :: _, _, vars => vars
  | .complete text :: rest, file, vars =>
    if text.isEmpty then joinEntries rest file vars
    else match readAssignment text with
      | none => vars
      | some (name, tail) =>
        let tail := tail.dropWhile Text.isBlank
        let value :=
          if tail.isEmpty || isComment tail then some ""
          else readValue (valueOf vars file) tail ⟨[], .none, none, false, false⟩
        match value with
        | none => vars
        | some value => joinEntries rest (file.insert name value) (vars.insertNew name value)

/-- The variables together with those of a file. A byte order mark at its front is passed over. -/
def join (text : String) (vars : Variables) : Variables :=
  joinEntries (fileEntries [] .plain (Text.fullLines '\n' (Text.dropMark text.toList))) ⟨[]⟩ vars

end EsotericHost.Variables
