import EsotericHost.Decimal.Layout
import EsotericHost.Json.Printer
import EsotericHost.Toml.Basic

/-!
# Writing settings files

A table is written as a header and the values in it, followed by the tables in it. A table that
holds only tables has no header of its own. A string is written in the first of four ways that can
do without escapes: between quotes, between apostrophes, between triple quotes, between triple
apostrophes. Where none can, it is written with escapes.
-/

namespace EsotericHost.Toml

/-- Numbers are positional whatever their size, and a whole number keeps a zero after the point. -/
def floatLayout : Decimal.Layout := ⟨fun _ => true, true⟩

/-- The text of a double. -/
def floatText (x : Float) : String :=
  match Decimal.parts x with
  | .nan => "nan"
  | _ => floatLayout.write x

/-- Four hexadecimal digits in capitals. -/
def hex4 (n : Nat) : List Char :=
  [n / 4096 % 16, n / 256 % 16, n / 16 % 16, n % 16].map fun d =>
    if d < 10 then Char.ofNat (48 + d) else Char.ofNat (55 + d)

/-- Whether the character can only be written by an escape. -/
def isControl (c : Char) : Bool :=
  (c.toNat < 32 && c ≠ '\t' && c ≠ '\n') || c.toNat = 127

/-- The escape of a character that does not stand for itself between quotes. -/
def escape? (severalLines : Bool) (c : Char) : Option (List Char) :=
  if c.toNat = 8 then some ['\\', 'b']
  else if c = '\t' then some ['\\', 't']
  else if c = '\n' then (if severalLines then none else some ['\\', 'n'])
  else if c.toNat = 12 then some ['\\', 'f']
  else if c = '\r' then some ['\\', 'r']
  else if c = '\\' then some ['\\', '\\']
  else if isControl c then some ('\\' :: 'u' :: hex4 c.toNat)
  else none

/-- A text between quotes. Where it may have several lines, two quotes in a row stand as they are,
and a third one after them is escaped; `run` is the number of quotes in a row so far. -/
def quoted (severalLines : Bool) : Nat → List Char → List Char
  | _, [] => []
  | run, c :: rest =>
    if c = '"' then
      if severalLines && run < 2 then c :: quoted severalLines (run + 1) rest
      else '\\' :: c :: quoted severalLines 0 rest
    else match escape? severalLines c with
      | some text => text ++ quoted severalLines 0 rest
      | none => c :: quoted severalLines 0 rest

/-- The greatest number of the given marks in a row. -/
def longestRun (mark : Char) (cs : List Char) : Nat :=
  (cs.foldl (fun (best, run) c =>
    if c = mark then (max best (run + 1), run + 1) else (best, 0)) (0, 0)).1

/-- The ways to write a string. -/
inductive Quotes where
  /-- Between quotes. -/
  | basic
  /-- Between apostrophes, as it is. -/
  | literal
  /-- Between triple quotes. -/
  | basicLines
  /-- Between triple apostrophes, as it is. -/
  | literalLines
  deriving Repr, DecidableEq

/-- The way to write a string: the first that needs no escapes but those of tabs, or else one that
has them. -/
def Quotes.ofText (cs : List Char) : Quotes :=
  let plain := !cs.any isControl
  let plainBasic := plain && !cs.contains '\\'
  let oneLine := !cs.contains '\n'
  if plainBasic && oneLine && !cs.contains '"' then basic
  else if plain && oneLine && !cs.contains '\'' then literal
  else if plainBasic && longestRun '"' cs ≤ 2 then basicLines
  else if plain && longestRun '\'' cs ≤ 2 then literalLines
  else if oneLine then basic
  else basicLines

/-- A string in one of the ways. A text of several lines begins on a line of its own. -/
def Quotes.write (way : Quotes) (cs : List Char) : String :=
  let start := if cs.contains '\n' then "\n" else ""
  match way with
  | basic => "\"" ++ String.ofList (quoted false 0 cs) ++ "\""
  | literal => "'" ++ String.ofList cs ++ "'"
  | basicLines => "\"\"\"" ++ start ++ String.ofList (quoted true 0 cs) ++ "\"\"\""
  | literalLines => "'''" ++ start ++ String.ofList cs ++ "'''"

/-- A string. -/
def stringText (s : String) : String :=
  (Quotes.ofText s.toList).write s.toList

/-- A key, with quotes or apostrophes where it needs them. -/
def keyText (key : String) : String :=
  let cs := key.toList
  let plain := cs.all fun c => !isControl c && c ≠ '\n'
  if !cs.isEmpty && cs.all isKeyChar then key
  else if plain && (cs.contains '"' || cs.contains '\\') && !cs.contains '\'' then
    Quotes.literal.write cs
  else Quotes.basic.write cs

mutual

/-- A value on the right of an equals sign. An array of more than one item has a line for each. -/
def valueText : Toml → String
  | bool b => if b then "true" else "false"
  | int n => toString n
  | float x => floatText x
  | string s => stringText s
  | array items =>
    match items with
    | [] => "[]"
    | [v] => "[" ++ valueText v ++ "]"
    | v :: rest => "[" ++ itemTexts (v :: rest) ++ "\n]"
  | table members =>
    match members with
    | [] => "\x7b\x7d"
    | _ => "\x7b " ++ ", ".intercalate (memberTexts members) ++ " \x7d"

/-- The items of an array, each on its own line. -/
def itemTexts : List Toml → String
  | [] => ""
  | v :: rest => "\n    " ++ valueText v ++ "," ++ itemTexts rest

/-- The members of a table between braces. -/
def memberTexts : List (String × Toml) → List String
  | [] => []
  | (key, v) :: rest => (keyText key ++ " = " ++ valueText v) :: memberTexts rest

end

/-- Whether the value is a table. -/
def isTable : Toml → Bool
  | table _ => true
  | _ => false

/-- Whether the value is written under headers of its own. -/
def hasHeader : Toml → Bool
  | table _ => true
  | array items => !items.isEmpty && items.all isTable
  | _ => false

/-- The lines of the members that have no headers of their own. -/
def plainLines (members : List (String × Toml)) : List String :=
  (members.filter fun (_, v) => !v.hasHeader).map fun (key, v) =>
    keyText key ++ " = " ++ valueText v ++ "\n"

/-- A header. -/
def header (path : List String) (brackets : String × String) : String :=
  brackets.1 ++ ".".intercalate (path.map keyText) ++ brackets.2 ++ "\n"

/-- The lines of one table, without the tables in it, as a block of its own. -/
def block (path : List String) (element : Bool) (members : List (String × Toml)) : List String :=
  let lines := plainLines members
  if path.isEmpty then (if lines.isEmpty then [] else ["".intercalate lines])
  else if element then ["".intercalate (header path ("[[", "]]") :: lines)]
  -- A table of tables only is opened by the headers of those.
  else if lines.isEmpty && !members.isEmpty then []
  else ["".intercalate (header path ("[", "]") :: lines)]

mutual

/-- The blocks of a table at a path and of the tables in it. -/
def blocks (path : List String) (element : Bool) : Toml → List String
  | table members => block path element members ++ memberBlocks path members
  | array items => itemBlocks path items
  | _ => []

/-- The blocks of the tables among the members. -/
def memberBlocks (path : List String) : List (String × Toml) → List String
  | [] => []
  | (key, v) :: rest =>
    (if v.hasHeader then blocks (path ++ [key]) false v else []) ++ memberBlocks path rest

/-- The blocks of the tables of an array. -/
def itemBlocks (path : List String) : List Toml → List String
  | [] => []
  | v :: rest => blocks path true v ++ itemBlocks path rest

end

/-- The text of a settings file, its blocks parted by empty lines. -/
def print (members : List (String × Toml)) : String :=
  "\n".intercalate (blocks [] false (table members))

end EsotericHost.Toml
