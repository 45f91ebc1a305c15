import EsotericHost.Json.Reader
import EsotericHost.Yaml.Cursor

/-!
# Texts in YAML

A text is quoted, plain, or a block of lines. The lines of quoted and of plain texts are folded: one
line ending stands for a blank, and several stand for one line feed less. In a block the lines stay
as they are, or are folded unless they are indented more than the others.

`indent` is the column at which the block around a text starts; what belongs to the text may not
start before it. It is negative outside of all blocks.
-/

namespace EsotericHost.Yaml

open Text (Read)

/-- What line endings stand for when the lines beside them are folded: the first one, if there is
one that may be folded, and the number of the others. -/
def folded (first : Bool) (others : Nat) : List Char :=
  if first && others = 0 then [' '] else List.replicate others '\n'

/-! ## Quoted texts -/

/-- What an escape of one letter stands for. -/
def unescape? (c : Char) : Option Char :=
  match c with
  | '0' => some (Char.ofNat 0)
  | 'a' => some (Char.ofNat 7)
  | 'v' => some (Char.ofNat 11)
  | 'e' => some (Char.ofNat 27)
  | ' ' => some ' '
  | '\t' => some '\t'
  | 'N' => some '\u0085'
  | '_' => some '\u00A0'
  | 'L' => some '\u2028'
  | 'P' => some '\u2029'
  | c => Json.unescape? c

/-- An escape, after the backslash. -/
def readEscape : List Char → Read Char
  | 'x' :: rest => Json.readCode 2 rest
  | 'u' :: rest => Json.readCode 4 rest
  | 'U' :: rest => Json.readCode 8 rest
  | c :: rest => (unescape? c).map (·, rest)
  | [] => none

/-- The part of a quoted text up to a blank, a line ending or the closing mark, put in front of what
has been read, which is given last character first. The flag says whether the part ended with a
line ending that was escaped. -/
def readQuotedPart (mark : Char) : Nat → List Char → Cursor → Option (Bool × List Char × Cursor)
  | 0, _, _ => none
  | fuel + 1, out, c =>
    match c.rest with
    | [] => some (false, out, c)
    | ch :: rest =>
      if isBlank ch || isBreak ch then some (false, out, c)
      else if ch = mark then
        -- Between apostrophes, two of them stand for one, and there are no other escapes.
        if mark = '\'' && rest.head? = some '\'' then
          readQuotedPart mark fuel (ch :: out) (c.move 2)
        else some (false, out, c)
      else if ch = '\\' && mark = '"' then
        if rest.head?.any isBreak then some (true, out, (c.move 1).nextLine)
        else match readEscape rest with
          | some (x, rest) => readQuotedPart mark fuel (x :: out) (c.moveTo rest)
          | none => none
      else readQuotedPart mark fuel (ch :: out) (c.move 1)

/-- The gap between two parts of a quoted text, with what it stands for. `inside` says whether the
cursor has come to a new line, `first` whether its ending may be folded, and `others` counts the
line endings after that; `blanks` are those on the first line, last one first. -/
def readQuotedGap (indent : Int) : Nat → Bool → Bool → Nat → List Char → Cursor →
    Option (List Char × Cursor)
  | 0, _, _, _, _, _ => none
  | fuel + 1, inside, first, others, blanks, c =>
    match c.rest.head? with
    | some '\n' | some '\r' =>
      if inside then readQuotedGap indent fuel true first (others + 1) blanks c.nextLine
      -- The first line ending drops the blanks before it.
      else readQuotedGap indent fuel true true others blanks c.nextLine
    | some ' ' =>
      let blanks := if inside then blanks else ' ' :: blanks
      readQuotedGap indent fuel inside first others blanks (c.moveBlank 1)
    | some '\t' =>
      if inside && c.column < indent then none
      else
        let blanks := if inside then blanks else '\t' :: blanks
        readQuotedGap indent fuel inside first others blanks (c.moveBlank 1)
    | _ => some (if inside then folded first others else blanks.reverse, c)

/-- The rest of a quoted text up to its closing mark. What has been read of it is given last
character first. -/
def readQuotedParts (indent : Int) (mark : Char) : Nat → List Char → Cursor →
    Option (List Char × Cursor)
  | 0, _, _ => none
  | fuel + 1, out, c =>
    if c.atDocumentEdge || c.rest.isEmpty || c.column < indent then none
    else
      match readQuotedPart mark (c.rest.length + 1) out c with
      | none => none
      | some (joined, out, c) =>
        if c.rest.head? = some mark then some (out.reverse, c.move 1)
        else match readQuotedGap indent (c.rest.length + 1) joined false 0 [] c with
          | some (gap, c) => readQuotedParts indent mark fuel (gap.reverse ++ out) c
          | none => none

/-- Whether a quoted text may end here. Beside the end of the line, the sign of a value may follow,
and between brackets and braces one of their marks. `sameLine` says whether the text has been within
one line. -/
def mayEndQuoted (inFlow sameLine : Bool) (cs : List Char) : Bool :=
  match cs with
  | [] => true
  | c :: _ =>
    isBreak c || (c = ':' && (inFlow || sameLine)) ||
      (inFlow && (c = ',' || c = ']' || c = '\x7d'))

/-- A text between quotes or apostrophes, at whose opening mark the cursor stands. -/
def readQuoted (indent : Int) (inFlow : Bool) (mark : Char) (c : Cursor) :
    Option (String × Cursor) :=
  match readQuotedParts indent mark (c.rest.length + 1) [] (c.move 1) with
  | none => none
  | some (text, after) =>
    match after.skipGap true with
    | some (_, after) =>
      if mayEndQuoted inFlow (after.line = c.line) after.rest then
        some (String.ofList text, after)
      else none
    | none => none

/-! ## Plain texts -/

/-- Whether the next character belongs to a plain text. A colon does unless a gap follows it. -/
def isPlainNext (inFlow : Bool) : List Char → Bool
  | [] => false
  | c :: rest =>
    !(isBlank c || isBreak c) && !(inFlow && isFlowMark c) &&
      !(c = ':' && (atGap rest || (inFlow && atFlowMark rest)))

/-- The number of characters of a plain text before a gap or a mark. -/
def plainLength (inFlow : Bool) : List Char → Nat
  | [] => 0
  | c :: rest => if isPlainNext inFlow (c :: rest) then plainLength inFlow rest + 1 else 0

/-- The gap between two parts of a plain text, with what it stands for; see `readQuotedGap`. `least`
is the first column in which the text may go on. Tabs in front of that column have to be on an empty
line. -/
def readPlainGap (least : Int) : Nat → Bool → Nat → List Char → Cursor →
    Option (List Char × Cursor)
  | 0, _, _, _, _ => none
  | fuel + 1, first, others, blanks, c =>
    match c.rest with
    | [] => some (if c.fresh then folded first others else blanks.reverse, c)
    | ch :: _ =>
      if isBreak ch then
        if c.fresh then readPlainGap least fuel first (others + 1) blanks c.nextLine
        else readPlainGap least fuel true others [] c.nextLine
      else if !isBlank ch then
        some (if c.fresh then folded first others else blanks.reverse, c)
      else if !c.fresh then readPlainGap least fuel first others (ch :: blanks) (c.moveBlank 1)
      else if ch = '\t' && c.column < least then
        match c.skipEmpty with
        | some c => readPlainGap least fuel first others blanks c
        | none => none
      else readPlainGap least fuel first others blanks (c.moveBlank 1)

/-- The rest of a plain text. What has been read of it is given last character first, and `gap` is
what is before the next part if there is one. -/
def readPlainParts (least : Int) (inFlow : Bool) : Nat → List Char → List Char → Cursor →
    Option (List Char × Cursor)
  | 0, _, _, _ => none
  | fuel + 1, gap, out, c =>
    if c.atDocumentEdge || c.rest.head? = some '#' then some (out.reverse, c)
    -- A hyphen alone would be an entry, of which there are none in brackets.
    else if inFlow && c.rest.head? = some '-' && atFlowMark (c.rest.drop 1) then none
    else
      let count := plainLength inFlow c.rest
      let out := if count = 0 then out else (c.rest.take count).reverse ++ gap.reverse ++ out
      let c := c.move count
      if c.rest.isEmpty || !atGap c.rest then some (out.reverse, c)
      else match readPlainGap least (c.rest.length + 1) false 0 [] c with
        | none => none
        | some (gap, c) =>
          if !inFlow && c.column < least then some (out.reverse, c)
          else readPlainParts least inFlow fuel gap out c

/-- A text without quotes. It has at least one character. -/
def readPlain (indent : Int) (inFlow : Bool) (c : Cursor) : Option (String × Cursor) :=
  if inFlow && c.column < indent + 1 then none
  else match readPlainParts (indent + 1) inFlow (c.rest.length + 1) [] [] c with
    | none | some ([], _) => none
    | some (text, c) => some (String.ofList text, c)

/-! ## Blocks of lines -/

/-- What becomes of the line endings at the end of a block. -/
inductive Ending where
  | one
  | noEnding
  | all
  deriving Repr, DecidableEq

/-- The sign for the end of a block. -/
def takeEnding : List Char → Option Ending × List Char
  | '+' :: rest => (some .all, rest)
  | '-' :: rest => (some .noEnding, rest)
  | cs => (none, cs)

/-- The sign for how much a block is indented, which is a digit but not zero; zero is the answer if
there is no digit. -/
def takeIndent : List Char → Read Nat
  | [] => some (0, [])
  | c :: rest =>
    if c = '0' then none
    else some (((Decimal.digitValue? c).map (·, rest)).getD (0, c :: rest))

/-- The signs after the mark of a block, in either order. -/
def readHeader (cs : List Char) : Read (Ending × Nat) :=
  match takeEnding cs with
  | (some e, rest) => (takeIndent rest).map fun (indent, rest) => ((e, indent), rest)
  | (none, rest) =>
    (takeIndent rest).map fun (indent, rest) =>
      if indent = 0 then ((.one, 0), rest)
      else
        let (e, rest) := takeEnding rest
        ((e.getD .one, indent), rest)

/-- Passes over empty lines and over the first `indent` spaces of the line after them. The number of
line endings is added to `count`. -/
def skipIndent (indent : Nat) : Nat → Nat → Cursor → Nat × Cursor
  | 0, count, c => (count, c)
  | fuel + 1, count, c =>
    let c := c.moveBlank ((c.rest.take (indent - c.column)).takeWhile (· = ' ')).length
    if c.rest.head?.any isBreak then skipIndent indent fuel (count + 1) c.nextLine else (count, c)

/-- Passes over empty lines and over all spaces of the line after them. The first number is the
widest that the spaces have been, and the second one counts the line endings. -/
def findIndent : Nat → Nat → Nat → Cursor → Nat × Nat × Cursor
  | 0, widest, count, c => (widest, count, c)
  | fuel + 1, widest, count, c =>
    let c := c.moveBlank (c.rest.takeWhile (· = ' ')).length
    let widest := max widest c.column
    if c.rest.head?.any isBreak then findIndent fuel widest (count + 1) c.nextLine
    else (widest, count, c)

/-- What has been read of a block: its text, last character first, whether the last line of the text
has ended, the number of line endings after that, and whether the line starts with a blank. -/
structure Lines where
  text : List Char
  ended : Bool
  empty : Nat
  indented : Bool

/-- What stands between the lines that have been read and the next one. -/
def Lines.gap (isFolded indented : Bool) (ls : Lines) : List Char :=
  if isFolded && ls.ended && !ls.indented && !indented then folded true ls.empty
  else List.replicate (ls.empty + ls.ended.toNat) '\n'

/-- The rest of the lines of a block that is indented by `indent`. Without indentation the mark of
the end of the document ends it. -/
def readLines (isFolded : Bool) (indent : Nat) : Nat → Lines → Cursor → Lines × Cursor
  | 0, ls, c => (ls, c)
  | fuel + 1, ls, c =>
    if c.column ≠ indent ∨ c.rest.isEmpty ∨ (indent = 0 ∧ c.atDocumentMark '.') then (ls, c)
    else
      let indented := c.rest.head?.any isBlank
      let line := c.rest.takeWhile (!isBreak ·)
      let text := line.reverse ++ ls.gap isFolded indented ++ ls.text
      let c := c.move line.length
      if c.rest.isEmpty then (⟨text, false, 0, indented⟩, c)
      else
        let (empty, c) := skipIndent indent (c.rest.length + 1) 0 c.nextLine
        readLines isFolded indent fuel ⟨text, true, empty, indented⟩ c

/-- The text of a block of lines after which the given place follows. A last line without ending is
given one. -/
def Lines.finish (e : Ending) (indent : Nat) (ls : Lines) (c : Cursor) : String :=
  -- The text ended inside a line that belongs to the block.
  let last := if c.rest.isEmpty && max indent 1 ≤ c.column then 1 else 0
  let count := match e with
    | .noEnding => 0
    | .one => ls.ended.toNat + last
    | .all => ls.ended.toNat + last + ls.empty
  String.ofList (ls.text.reverse ++ List.replicate count '\n')

/-- The text of a block that has no lines before the end of the text; `count` line endings follow
the line with its mark, which has ended itself if `ended` says so. -/
def noLines (e : Ending) (ended : Bool) (count : Nat) : String :=
  match e with
  | .noEnding => ""
  | .one => if ended then "\n" else ""
  | .all => if ended then String.ofList (List.replicate (max count 1) '\n') else ""

/-- The lines of a block, after the line of its mark. The indentation is that of the first line that
is not empty if `said` is zero. -/
def readBlockLines (indent : Int) (isFolded : Bool) (e : Ending) (said : Nat) (c : Cursor) :
    Option (String × Cursor) :=
  let (inner, count, c) :=
    if said = 0 then
      let (widest, count, c) := findIndent (c.rest.length + 1) 0 0 c
      (max widest (indent + 1).toNat, count, c)
    else
      let inner := (max indent 0).toNat + said
      (inner, skipIndent inner (c.rest.length + 1) 0 c)
  if c.rest.isEmpty then some (noLines e true count, c)
  else if c.column < inner ∧ indent < c.column then none
  else
    let (ls, c) := readLines isFolded inner (c.rest.length + 1) ⟨[], false, count, false⟩ c
    some (ls.finish e inner c, c)

/-- A block of lines, at whose mark the cursor stands. -/
def readBlock (indent : Int) (isFolded : Bool) (c : Cursor) : Option (String × Cursor) :=
  match readHeader (c.rest.drop 1) with
  | none => none
  | some ((e, said), rest) =>
    match (c.moveTo rest).skipEmpty with
    | none => none
    | some c =>
      if c.rest.isEmpty then some (noLines e false 0, c)
      else
        let c := c.nextLine
        -- The indentation is found by its spaces, so a tab cannot begin it.
        if c.rest.head? = some '\t' then none else readBlockLines indent isFolded e said c

end EsotericHost.Yaml
