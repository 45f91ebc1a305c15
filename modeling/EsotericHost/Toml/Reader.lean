import EsotericHost.Toml.Scalar

/-!
# Reading settings files

A settings file is a row of lines. A line sets a value, or opens the table that the following
lines set values in, or does nothing. `Toml.read?` gives the members of the whole file, or nothing
for a text that is no such file.

A table may be opened only once and a value may be set only once. A key with dots adds to no table
that has been opened itself, and a header opens no table that keys with dots have made. `Node` keeps
what is needed to see that: whether a table has been opened itself or only stands above one that
has, and whether it was made by keys with dots. Between braces the same rules hold, and lines do not
count.
-/

namespace EsotericHost.Toml

open Text (Read)

/-! ## Values -/

/-- The text after spaces and tabs. -/
def skipSpaces (cs : List Char) : List Char :=
  cs.dropWhile fun c => c = ' ' || c = '\t'

/-- The text after a comment, if there is one; the line ending stays. -/
def skipComment (cs : List Char) : Option (List Char) :=
  match cs with
  | '#' :: rest =>
    let rest := rest.dropWhile isPlain
    if rest.isEmpty || (takeNewline? rest).isSome then some rest else none
  | _ => some cs

/-- The text after spaces, comments and line endings. -/
def skipGaps : Nat → List Char → Option (List Char)
  | 0, _ => none
  | fuel + 1, cs =>
    match skipComment (skipSpaces cs) with
    | none => none
    | some rest =>
      match takeNewline? rest with
      | some rest => skipGaps fuel rest
      | none => some rest

/-- A key without dots. -/
def readSimpleKey (cs : List Char) : Read String :=
  match cs with
  | '"' :: '"' :: '"' :: _ => none
  | '\'' :: '\'' :: '\'' :: _ => none
  | '"' :: _ => readString cs
  | '\'' :: _ => readString cs
  | _ =>
    let key := cs.takeWhile isKeyChar
    if key.isEmpty then none else some (String.ofList key, cs.dropWhile isKeyChar)

/-- The depth to which a value may be nested, and the number of parts that a key may have. -/
def depthLimit : Nat := 80

/-- A key with its dots, of at most the given number of parts: the parts before the last one, and
the last one. -/
def readKey : Nat → List Char → Read (List String × String)
  | 0, _ => none
  | count + 1, cs =>
    match readSimpleKey cs with
    | none => none
    | some (part, rest) =>
      match skipSpaces rest with
      | '.' :: rest =>
        (readKey count (skipSpaces rest)).map fun ((path, last), rest) =>
          ((part :: path, last), rest)
      | rest => some (([], part), rest)

/-! ## Tables -/

/-- A part of a file that is being read. An array of tables has its last table first. -/
inductive Node where
  | value (v : Toml)
  | table (implicit dotted : Bool) (members : List (String × Node))
  | tables (elements : List (List (String × Node)))

mutual

/-- The value of a finished part. -/
def Node.toToml : Node → Toml
  | .value v => v
  | .table _ _ members => .table (membersToToml members)
  | .tables elements => .array (elementsToToml elements [])

/-- The values of finished members. -/
def membersToToml : List (String × Node) → List (String × Toml)
  | [] => []
  | (key, node) :: rest => Table.insert key node.toToml (membersToToml rest)

/-- The values of finished tables, in the order in which they were opened. -/
def elementsToToml : List (List (String × Node)) → List Toml → List Toml
  | [], done => done
  | members :: rest, done => elementsToToml rest (.table (membersToToml members) :: done)

end

/-- Changes the members at the end of a path. The tables on the way are made if they are missing;
`dotted` says whether the path belongs to a key with dots, which leads into no table that has been
opened itself, and does not end at a table of an array. -/
def descend (dotted : Bool) (change : List (String × Node) → Option (List (String × Node))) :
    List String → List (String × Node) → Option (List (String × Node))
  | [], members => change members
  | key :: path, members =>
    match Table.find? key members with
    | none =>
      (descend dotted change path []).map fun inner =>
        Table.insert key (.table true dotted inner) members
    | some (.value _) => none
    | some (.tables []) => none
    -- A path leads into the table of an array that was opened last.
    | some (.tables (last :: earlier)) =>
      if dotted && path.isEmpty then none
      else (descend dotted change path last).map fun last =>
        Table.insert key (.tables (last :: earlier)) members
    | some (.table implicit made inner) =>
      if dotted && !implicit then none
      else (descend dotted change path inner).map fun inner =>
        Table.insert key (.table implicit made inner) members

/-- Sets a value in a table by a key with or without dots. -/
def setValue (path : List String) (key : String) (v : Toml) :
    List (String × Node) → Option (List (String × Node)) :=
  descend true
    (fun inner =>
      match Table.find? key inner with
      | some _ => none
      | none => some (Table.insert key (.value v) inner))
    path

/-- Opens a table. -/
def openTable (path : List String) (key : String) :
    List (String × Node) → Option (List (String × Node)) :=
  descend false
    (fun inner =>
      match Table.find? key inner with
      | none => some (Table.insert key (.table false false []) inner)
      | some (.table true false members) =>
        -- It stood above another header only, and is opened itself now.
        some (Table.insert key (.table false false members) inner)
      | some _ => none)
    path

/-- Opens one more table of an array of tables. -/
def openElement (path : List String) (key : String) :
    List (String × Node) → Option (List (String × Node)) :=
  descend false
    (fun inner =>
      match Table.find? key inner with
      | none => some (Table.insert key (.tables [[]]) inner)
      | some (.tables elements) => some (Table.insert key (.tables ([] :: elements)) inner)
      | some _ => none)
    path

mutual

/-- A value in which `depth` more arrays and tables may be opened. The first bound goes down with
every value, item and member; twice the length of the text is enough. -/
def readValue : Nat → Nat → List Char → Read Toml
  | 0, _, _ => none
  | fuel + 1, depth, cs =>
    match cs with
    | '"' :: _ => (readString cs).map fun (s, rest) => (.string s, rest)
    | '\'' :: _ => (readString cs).map fun (s, rest) => (.string s, rest)
    | '[' :: rest => if depth = 0 then none else readItems fuel (depth - 1) [] rest
    | '\x7b' :: rest => if depth = 0 then none else readInline fuel (depth - 1) [] rest
    | _ => readWord cs

/-- The rest of an array; the items so far are given last first. -/
def readItems : Nat → Nat → List Toml → List Char → Read Toml
  | 0, _, _, _ => none
  | fuel + 1, depth, done, cs =>
    match skipGaps (cs.length + 1) cs with
    | none => none
    -- A comma may stand after the last item.
    | some (']' :: rest) => some (.array done.reverse, rest)
    | some cs =>
      match readValue fuel depth cs with
      | none => none
      | some (v, rest) =>
        match skipGaps (rest.length + 1) rest with
        | some (',' :: rest) => readItems fuel depth (v :: done) rest
        | some (']' :: rest) => some (.array (v :: done).reverse, rest)
        | _ => none

/-- The rest of a table between braces; the members so far are given. -/
def readInline : Nat → Nat → List (String × Node) → List Char → Read Toml
  | 0, _, _, _ => none
  | fuel + 1, depth, members, cs =>
    match skipGaps (cs.length + 1) cs with
    | none => none
    | some ('\x7d' :: rest) => some (.table (membersToToml members), rest)
    | some cs =>
      match readMember fuel depth members cs with
      | none => none
      | some (members, rest) =>
        match skipGaps (rest.length + 1) rest with
        | some (',' :: rest) => readInline fuel depth members rest
        | some ('\x7d' :: rest) => some (.table (membersToToml members), rest)
        | _ => none

/-- A member of a table between braces: the members with it. -/
def readMember : Nat → Nat → List (String × Node) → List Char → Read (List (String × Node))
  | 0, _, _, _ => none
  | fuel + 1, depth, members, cs =>
    match readKey depthLimit cs with
    | none => none
    | some ((path, key), rest) =>
      match skipGaps (rest.length + 1) rest with
      | some ('=' :: rest) =>
        match (skipGaps (rest.length + 1) rest).bind (readValue fuel depth) with
        | some (v, rest) => (setValue path key v members).map (·, rest)
        | none => none
      | _ => none

end

/-! ## Lines -/

/-- A file as far as it has been read: its members, and the path of the open table. -/
structure Document where
  root : List (String × Node)
  current : List String

/-- The key of a header, after its opening brackets; it ends with the closing ones. -/
def readHeader (close : List Char) (cs : List Char) : Read (List String × String) :=
  match readKey depthLimit (skipSpaces cs) with
  | some (key, rest) =>
    if close.isPrefixOf rest then some (key, rest.drop close.length) else none
  | none => none

/-- A line of a file without its ending. -/
def readLine (d : Document) (cs : List Char) : Read Document :=
  match cs with
  | '[' :: '[' :: rest =>
    match readHeader [']', ']'] rest with
    | none => none
    | some ((path, key), rest) =>
      (openElement path key d.root).map fun root => (⟨root, path ++ [key]⟩, rest)
  | '[' :: rest =>
    match readHeader [']'] rest with
    | none => none
    | some ((path, key), rest) =>
      (openTable path key d.root).map fun root => (⟨root, path ++ [key]⟩, rest)
  | _ =>
    match readKey depthLimit cs with
    | some ((path, key), '=' :: rest) =>
      match readValue (2 * rest.length + 2) depthLimit (skipSpaces rest) with
      | none => none
      | some (v, rest) =>
        -- The open table is found again by its path, the last one of an array.
        (descend false (setValue path key v) d.current d.root).map fun root =>
          ({ d with root }, rest)
    | _ => none

/-- Reads on to the end of a file. -/
def readDocument : Nat → Document → List Char → Option Document
  | 0, _, _ => none
  | fuel + 1, d, cs =>
    match skipGaps (cs.length + 1) cs with
    | none => none
    | some [] => some d
    | some cs =>
      match readLine d cs with
      | none => none
      | some (d, rest) =>
        match skipComment (skipSpaces rest) with
        | none => none
        | some [] => some d
        | some rest =>
          match takeNewline? rest with
          | some rest => readDocument fuel d rest
          | none => none

/-- The members of a settings file. A byte order mark at its front is passed over. -/
def read? (text : String) : Option (List (String × Toml)) :=
  let cs := Text.dropMark text.toList
  (readDocument (cs.length + 1) ⟨[], []⟩ cs).map fun d => membersToToml d.root

end EsotericHost.Toml
