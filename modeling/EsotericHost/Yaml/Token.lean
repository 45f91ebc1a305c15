import EsotericHost.Json.Reader
import EsotericHost.Yaml.Cursor

/-!
# The tokens of YAML

Besides texts there are tokens for the marks in a YAML text, and tokens for what no character stands
for: a block of entries or of members starts and ends with the columns of its lines. Directives,
tags, anchors and aliases stand within a line, and are read here.
-/

namespace EsotericHost.Yaml

open Text (Read)

/-- A tag as it is written: the handle, which stands for the start of a name, and the rest of the
name. -/
structure Tag where
  handle : String
  suffix : String
  deriving Repr, DecidableEq

/-- A line in front of a document: the version of YAML, or what a handle stands for. -/
inductive Directive where
  | version
  | tag (handle start : String)
  deriving Repr, DecidableEq

/-- A token. A text is plain if there are no quotes around it and it is not a block of lines. -/
inductive Token where
  | directive (d : Directive)
  | documentStart
  | documentEnd
  | entriesStart
  | membersStart
  | blockEnd
  | entry
  | listStart
  | listEnd
  | mapStart
  | mapEnd
  | comma
  | key
  | value
  | anchor (name : String)
  | alias (name : String)
  | tag (t : Tag)
  | text (isPlain : Bool) (s : String)
  deriving Repr, DecidableEq

/-! ## Anchors and aliases -/

/-- The characters of the names of anchors. -/
def isAnchorChar (c : Char) : Bool :=
  !(isBlank c || isBreak c || isFlowMark c || c = '\uFEFF')

/-- The name of an anchor. -/
def readAnchor (cs : List Char) : Read String :=
  match cs.takeWhile isAnchorChar with
  | [] => none
  | name => some (String.ofList name, cs.dropWhile isAnchorChar)

/-! ## Tags -/

/-- The characters that may stand in the name of a tag in angle brackets. -/
def isUriChar (c : Char) : Bool :=
  c.isAlphanum || c ∈ "-#;/?:@&=+$,_.!~*'()[]%".toList

/-- The characters that may stand in any other name of a tag. -/
def isTagChar (c : Char) : Bool :=
  isUriChar c && !isFlowMark c && c ≠ '!'

/-- A byte in hexadecimal after a percent sign. -/
def readByte : List Char → Read Nat
  | '%' :: a :: b :: rest =>
    match Json.hexValue? a, Json.hexValue? b with
    | some a, some b => some (16 * a + b, rest)
    | _, _ => none
  | _ => none

/-- The number of bytes that follow the first one of a character. -/
def followers? (byte : Nat) : Option Nat :=
  if byte < 0x80 then some 0
  else if byte / 32 = 6 then some 1
  else if byte / 16 = 14 then some 2
  else if byte / 8 = 30 then some 3
  else none

/-- The bytes that follow the first one of a character, joined to the code. -/
def readFollowers : Nat → Nat → List Char → Read Nat
  | 0, code, cs => some (code, cs)
  | count + 1, code, cs =>
    match readByte cs with
    | some (byte, rest) =>
      -- The bits that mark a byte as a follower stay in the code.
      if byte / 64 = 2 then readFollowers count (256 * code + byte) rest else none
    | none => none

/-- A character whose code is given by bytes with percent signs. The bytes are the code, as they
are. -/
def readPercent (cs : List Char) : Read Char :=
  (readByte cs).bind fun (byte, rest) =>
    (followers? byte).bind fun count =>
      (readFollowers count byte rest).bind fun (code, rest) =>
        if code.isValidChar then some (Char.ofNat code, rest) else none

/-- Characters of the given class, some of which may be given by bytes, put behind what has been
read before. -/
def readName (isIn : Char → Bool) : Nat → String → List Char → Read String
  | 0, _, _ => none
  | fuel + 1, out, cs =>
    match cs with
    | [] => some (out, [])
    | c :: rest =>
      if !isIn c then some (out, cs)
      else if c = '%' then
        match readPercent cs with
        | some (c, rest) => readName isIn fuel (out.push c) rest
        | none => none
      else readName isIn fuel (out.push c) rest

/-- The handle of a tag: an exclamation mark, a name, and another mark if there is one. -/
def readHandle : List Char → Read String
  | '!' :: rest =>
    let name := rest.takeWhile isNameChar
    match rest.dropWhile isNameChar with
    | '!' :: rest => some (String.ofList ('!' :: name ++ ['!']), rest)
    | rest => some (String.ofList ('!' :: name), rest)
  | _ => none

/-- Whether a handle has a mark at either end. -/
def isFullHandle (handle : String) : Bool :=
  2 ≤ handle.length && handle.endsWith "!"

/-- A tag, from its exclamation mark on. Without a full handle it belongs to the handle of a single
mark, unless there is no name at all. -/
def readTag (cs : List Char) : Read Tag :=
  match cs with
  | '!' :: '<' :: rest =>
    match readName isUriChar (rest.length + 1) "" rest with
    | some (suffix, '>' :: rest) => some (⟨"", suffix⟩, rest)
    | _ => none
  | _ =>
    match readHandle cs with
    | none => none
    | some (handle, rest) =>
      if isFullHandle handle then
        (readName isTagChar (rest.length + 1) "" rest).bind fun (suffix, rest) =>
          if suffix.isEmpty then none else some (⟨handle, suffix⟩, rest)
      else
        (readName isTagChar (rest.length + 1) (String.ofList (handle.toList.drop 1)) rest).map
          fun (suffix, rest) => (if suffix.isEmpty then ⟨"", "!"⟩ else ⟨"!", suffix⟩, rest)

/-! ## Directives -/

/-- A part of a version, which has at most nine digits. -/
def readVersionPart (cs : List Char) : Option (List Char) :=
  let count := (cs.takeWhile Char.isDigit).length
  if 0 < count ∧ count ≤ 9 then some (cs.drop count) else none

/-- The start of a name that a handle stands for. -/
def readTagStart (cs : List Char) : Read String :=
  match cs with
  | '!' :: rest => readName isUriChar (rest.length + 1) "!" rest
  | c :: _ => if isTagChar c then readName isUriChar (cs.length + 1) "" cs else none
  | [] => none

/-- What a directive for a handle says, after the name of the directive. -/
def readTagDirective (cs : List Char) : Read Directive :=
  match readHandle (cs.dropWhile isBlank) with
  | none => none
  | some (handle, rest) =>
    if handle ≠ "!" ∧ ¬ isFullHandle handle then none
    else match readTagStart (rest.dropWhile isBlank) with
      | some (start, rest) => if atGap rest then some (.tag handle start, rest) else none
      | none => none

/-- A directive, after its percent sign. One of another name has no effect but that of a directive
for the handle without characters. -/
def readDirective (cs : List Char) : Read Directive :=
  let name := cs.takeWhile isNameChar
  let rest := cs.dropWhile isNameChar
  if name.isEmpty || !atGap rest then none
  else if name = "YAML".toList then
    match readVersionPart (rest.dropWhile isBlank) with
    | some ('.' :: rest) => (readVersionPart rest).map (.version, ·)
    | _ => none
  else if name = "TAG".toList then readTagDirective rest
  else some (.tag "" "", rest.dropWhile (!isBreak ·))

end EsotericHost.Yaml
