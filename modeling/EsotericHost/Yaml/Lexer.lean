import EsotericHost.Yaml.Scalar
import EsotericHost.Yaml.Token

/-!
# From a YAML text to tokens

A key shows itself only by the colon after it, when its own tokens have been read already. So the
lexer remembers where a key may have started, and puts the token for the key in there once it comes
upon the colon. It also keeps the columns of the blocks that are open, and ends those that a line
further to the left leaves.

Between brackets and braces columns do not count, apart from those of the block around them. There a
pair of a key and a value may stand for a map of its own, for which the lexer puts in the tokens of
a map. The next comma or closing mark ends that map, also one that belongs to the value, and a colon
in the value keeps it from being ended at all; so the value can be no list and hold no colon. After
a brace or the sign of a key no such tokens are put in, and the value of a pair may be any.
-/

namespace EsotericHost.Yaml

/-- A place where a key may have started: the number of tokens before it and where it is. If it is
required there has to be a key. -/
structure PossibleKey where
  required : Bool
  position : Nat
  index : Nat
  line : Nat
  column : Nat

/-- A column that has been opened: the column before it, and whether a block has been opened with
it. -/
structure Indent where
  before : Int
  isBlock : Bool

/-- The state of the lexer. -/
structure Lexer where
  /-- Where it is. -/
  cursor : Cursor
  /-- The tokens so far, last one first. -/
  tokens : List Token
  /-- Whether a key may start here. -/
  keysAllowed : Bool
  /-- Where the key may have started that may end here. -/
  key : Option PossibleKey
  /-- The keys that may have started outside of each open bracket or brace, innermost first. -/
  outerKeys : List (Option PossibleKey)
  /-- The column of the innermost block. -/
  indent : Int
  /-- The columns that are open, innermost first. -/
  indents : List Indent
  /-- Whether the map of a single pair is open, which the next comma or closing mark ends. -/
  pairOpen : Bool
  /-- Whether a map has been opened by a brace or by the sign of a key since the last pair ended. -/
  mapStarted : Bool
  /-- The number of characters before the place where a colon needs no gap after it. -/
  adjacent : Nat

namespace Lexer

/-- The lexer at the start of a text. -/
def start (cs : List Char) : Lexer :=
  ⟨.start cs, [], true, none, [], -1, [], false, false, 0⟩

/-- Whether there is an open bracket or brace. -/
def inFlow (l : Lexer) : Bool := !l.outerKeys.isEmpty

/-- Adds a token. -/
def push (t : Token) (l : Lexer) : Lexer := { l with tokens := t :: l.tokens }

/-- Puts a token in where `position` tokens are before it. -/
def insert (position : Nat) (t : Token) (l : Lexer) : Lexer :=
  { l with tokens := l.tokens.insertIdx (l.tokens.length - position) t }

/-- Goes on at another place. -/
def goTo (c : Cursor) (l : Lexer) : Lexer := { l with cursor := c }

/-- Passes over the characters of a mark. -/
def move (count : Nat) (l : Lexer) : Lexer := l.goTo (l.cursor.move count)

/-- Passes over blanks and a comment. -/
def skipGap (l : Lexer) : Option Lexer :=
  (l.cursor.skipGap true).map fun (_, c) => l.goTo c

/-! ## Keys -/

/-- Says whether a key may start here. -/
def allowKeys (allowed : Bool) (l : Lexer) : Lexer := { l with keysAllowed := allowed }

/-- Remembers that a key may start here. There has to be one if a block goes on in its column. -/
def saveKey (l : Lexer) : Lexer :=
  if l.keysAllowed then
    let required :=
      !l.inFlow && l.indent = l.cursor.column && l.indents.head?.any Indent.isBlock
    let c := l.cursor
    { l with key := some ⟨required, l.tokens.length, c.index, c.line, c.column⟩ }
  else l

/-- Gives up the key that may have started. -/
def dropKey (l : Lexer) : Option Lexer :=
  if l.key.any PossibleKey.required then none else some { l with key := none }

/-- Gives up the key that may have started if it is too far back. Outside of brackets and braces a
key is within one line, and its colon comes after at most 1024 characters. -/
def dropOldKey (l : Lexer) : Option Lexer :=
  let isOld (k : PossibleKey) : Bool :=
    k.line < l.cursor.line || k.index + 1024 < l.cursor.index
  if !l.inFlow && l.key.any isOld then l.dropKey else some l

/-! ## Columns -/

/-- Opens a block in a column that is further to the right than the last one. The token for its
start goes where `position` tokens are before it. -/
def openBlock (position column : Nat) (t : Token) (l : Lexer) : Lexer :=
  if l.inFlow then l
  else
    let l := match l.indents with
      -- A column without a block gives way to the block that starts in it or after it.
      | ⟨before, false⟩ :: rest =>
        if l.indent ≤ (column : Int) then { l with indent := before, indents := rest } else l
      | _ => l
    if l.indent < (column : Int) then
      { l with indent := column, indents := ⟨l.indent, true⟩ :: l.indents }.insert position t
    else l

/-- Opens a column for what comes after a key or an entry on a later line, which is one further to
the right than the block. -/
def openColumn (l : Lexer) : Lexer :=
  if !l.inFlow && l.indents.head?.any Indent.isBlock then
    { l with indent := l.indent + 1, indents := ⟨l.indent, false⟩ :: l.indents }
  else l

/-- The column of the innermost block, and the columns that are open when those are closed that no
block has been opened with. -/
def blockColumns (indent : Int) : List Indent → Int × List Indent
  | [] => (indent, [])
  | i :: rest => if i.isBlock then (indent, i :: rest) else blockColumns i.before rest

/-- Closes the columns that no block has been opened with. -/
def closeColumns (l : Lexer) : Lexer :=
  let (indent, indents) := blockColumns l.indent l.indents
  { l with indent, indents }

/-- The innermost column, the tokens and the columns that are open when those are closed that are
further to the right than the given one. -/
def leaveColumns (column indent : Int) (tokens : List Token) :
    List Indent → Int × List Token × List Indent
  | [] => (indent, tokens, [])
  | i :: rest =>
    if column < indent then
      leaveColumns column i.before (if i.isBlock then .blockEnd :: tokens else tokens) rest
    else (indent, tokens, i :: rest)

/-- Closes the columns and ends the blocks that are further to the right than the given one. -/
def closeTo (column : Int) (l : Lexer) : Lexer :=
  if l.inFlow then l
  else
    let (indent, tokens, indents) := leaveColumns column l.indent l.tokens l.indents
    { l with indent, tokens, indents }

/-! ## Gaps -/

/-- Passes over blanks, comments and line endings. The flag says whether a line has ended. Tabs may
not stand in front of the column of a block, unless nothing else is on the line. -/
def skipLines (nested : Bool) (indent : Int) : Nat → Bool → Cursor → Option (Bool × Cursor)
  | 0, _, _ => none
  | fuel + 1, ended, c =>
    match c.rest with
    | [] => some (ended, c)
    | ch :: _ =>
      if ch = '\t' && nested && c.fresh && c.column < indent then
        (c.skipEmpty).bind (skipLines nested indent fuel ended)
      else if isBlank ch then skipLines nested indent fuel ended (c.moveBlank 1)
      else if isBreak ch then skipLines nested indent fuel true c.nextLine
      else if ch = '#' then skipLines nested indent fuel ended c.lineEnd
      else some (ended, c)

/-- Goes to the next token. A key may start on a new line. -/
def toNext (l : Lexer) : Option Lexer :=
  (skipLines (!l.indents.isEmpty) l.indent (l.cursor.rest.length + 1) false l.cursor).map
    fun (ended, c) => { l with cursor := c, keysAllowed := l.keysAllowed || (ended && !l.inFlow) }

/-! ## Documents -/

/-- Ends all blocks before a mark or a line of a document. -/
def closeAll (l : Lexer) : Option Lexer :=
  ((l.closeTo (-1)).dropKey).map (allowKeys false)

/-- Reads a directive, which has a line of its own. -/
def readDirective (l : Lexer) : Option Lexer := do
  let l ← l.closeAll
  let (d, rest) ← Yaml.readDirective (l.cursor.rest.drop 1)
  let c ← (l.cursor.moveTo rest).skipEmpty
  some ((l.push (.directive d)).goTo c.nextLine)

/-- Reads the mark of the start of a document. -/
def readDocumentStart (l : Lexer) : Option Lexer :=
  l.closeAll.map fun l => (l.push .documentStart).move 3

/-- Reads the mark of the end of a document. There is no more on its line. -/
def readDocumentEnd (l : Lexer) : Option Lexer := do
  let l ← l.closeAll
  let c ← (l.cursor.move 3).skipEmpty
  some ((l.push .documentEnd).goTo c)

/-! ## Brackets and braces -/

/-- The greatest number of brackets and braces that may be open. -/
def maxFlow : Nat := 255

/-- Reads an opening bracket or brace. -/
def openFlow (isMap : Bool) (l : Lexer) : Option Lexer :=
  let l := l.saveKey.openColumn
  if maxFlow ≤ l.outerKeys.length then none
  else
    -- The mark itself may start a key, which is looked at again after the closing one.
    let l := { l with outerKeys := l.key :: l.outerKeys, key := none, keysAllowed := true }
    let l :=
      if isMap then { l with mapStarted := true }.push .mapStart else l.push .listStart
    (l.move 1).skipGap

/-- Ends the map of a single pair if one is open. -/
def endPair (l : Lexer) : Lexer :=
  if l.pairOpen then { l with pairOpen := false, mapStarted := false }.push .mapEnd else l

/-- Reads a closing bracket or brace. After it a colon needs no gap. -/
def closeFlow (isMap : Bool) (l : Lexer) : Option Lexer := do
  let l ← l.dropKey
  let l := { l with key := l.outerKeys.head?.getD l.key, outerKeys := l.outerKeys.drop 1 }
  let l ← ((l.allowKeys false).endPair.move 1).skipGap
  let l := if l.inFlow then { l with adjacent := l.cursor.index } else l
  some (l.push (if isMap then .mapEnd else .listEnd))

/-- Reads a comma. -/
def readComma (l : Lexer) : Option Lexer :=
  l.dropKey.bind fun l => (((l.allowKeys true).endPair.push .comma).move 1).skipGap

/-! ## Entries, keys and values -/

/-- Reads the hyphen of an entry. Tabs do not part it from another hyphen. -/
def readEntry (l : Lexer) : Option Lexer := do
  if l.inFlow || !l.keysAllowed then none
  else
    let column := l.cursor.column
    let (gap, c) ← (l.cursor.move 1).skipGap true
    if gap.tab && c.rest.head? = some '-' && atGap (c.rest.drop 1) then none
    else
      -- The block starts in the column of the hyphen, not in that of what follows.
      let l := (l.goTo c).openBlock l.tokens.length column .entriesStart
      let l := if c.rest.head?.any isBreak || atFlowMark c.rest then l.openColumn else l
      let l ← l.dropKey
      some ((l.allowKeys true).push .entry)

/-- Passes over spaces, comments and line endings after the sign of a key. There has to be a space
or a line ending among them; `found` says whether there has been one. -/
def skipAfterKey : Nat → Bool → Cursor → Option Cursor
  | 0, _, _ => none
  | fuel + 1, found, c =>
    match c.rest with
    | [] => if found then some c else none
    | ch :: _ =>
      if ch = ' ' then skipAfterKey fuel true (c.moveBlank 1)
      else if isBreak ch then skipAfterKey fuel true c.nextLine
      else if ch = '#' then skipAfterKey fuel found c.lineEnd
      else if found && ch ≠ '\t' then some c
      else none

/-- Reads the question mark of a key. -/
def readKey (l : Lexer) : Option Lexer := do
  if !l.inFlow && !l.keysAllowed then none
  else
    let l :=
      if l.inFlow then { l with mapStarted := true }
      else l.openBlock l.tokens.length l.cursor.column .membersStart
    let l ← l.dropKey
    let c := l.cursor.move 1
    let c ← skipAfterKey (c.rest.length + 1) false c
    some (((l.goTo c).allowKeys (!l.inFlow)).push .key)

/-- Passes over the colon of a value. After a tab without spaces no word may follow. -/
def skipColon (l : Lexer) : Option Lexer :=
  let c := l.cursor.move 1
  if c.rest.head? = some '\t' then
    (c.skipGap true).bind fun (gap, c) =>
      if !gap.space && c.rest.head?.any isNameChar then none else some (l.goTo c)
  else some (l.goTo c)

/-- Reads the colon of a value. If a key may have started before it, the tokens from there on are
that key. Otherwise the key has had a sign of its own, or there is none. Between brackets and braces
the pair is a map of its own if no map has been started. -/
def readValue (l : Lexer) : Option Lexer :=
  let start := l.cursor
  let isPair := l.inFlow && !l.mapStarted
  match { l with pairOpen := isPair }.skipColon with
  | none => none
  | some l =>
    match l.key with
    | some k =>
      -- The key of a pair of its own is within the line of its colon.
      if isPair && k.line < start.line then none
      else
        let l := l.insert k.position .key
        let l := if isPair then l.insert k.position .mapStart else l
        let l := (l.openBlock k.position k.column .membersStart).openColumn
        some (({ l with key := none }.allowKeys false).push .value)
    | none =>
      if !l.inFlow && !l.keysAllowed then none
      else
        let l := if isPair then l.push .mapStart else l
        let l := (l.openBlock l.tokens.length start.column .membersStart).openColumn
        some ((l.allowKeys (!l.inFlow)).push .value)

/-! ## Texts and their properties -/

/-- Reads an anchor or an alias. -/
def readAnchor (token : String → Token) (l : Lexer) : Option Lexer := do
  let l := l.saveKey.allowKeys false
  let (name, rest) ← Yaml.readAnchor (l.cursor.rest.drop 1)
  some ((l.push (token name)).goTo (l.cursor.moveTo rest))

/-- Reads a tag. -/
def readTag (l : Lexer) : Option Lexer := do
  let l := l.saveKey.allowKeys false
  let (t, rest) ← Yaml.readTag l.cursor.rest
  if atGap rest || (l.inFlow && atFlowMark rest) then
    some ((l.push (.tag t)).goTo (l.cursor.moveTo rest))
  else none

/-- Reads a block of lines. -/
def readBlock (isFolded : Bool) (l : Lexer) : Option Lexer := do
  let l := (l.saveKey.allowKeys true).closeColumns
  let (s, c) ← Yaml.readBlock l.indent isFolded l.cursor
  some ((l.push (.text false s)).goTo c)

/-- Reads a quoted text. After it a colon needs no gap. -/
def readQuoted (mark : Char) (l : Lexer) : Option Lexer := do
  let l := l.saveKey.allowKeys false
  let (s, c) ← Yaml.readQuoted l.indent l.inFlow mark l.cursor
  -- The gap after the text is passed over first, so the colon may stand behind it.
  let l ← (l.goTo c).toNext
  some ({ l with adjacent := l.cursor.index }.push (.text false s))

/-- Reads a plain text. If it has ended with its line, a key may start after it. -/
def readPlain (l : Lexer) : Option Lexer := do
  let l := (l.saveKey.allowKeys false).closeColumns
  let (s, c) ← Yaml.readPlain l.indent l.inFlow l.cursor
  some (((l.push (.text true s)).goTo c).allowKeys c.fresh)

/-! ## Tokens -/

/-- Whether a colon, which the given text follows, is the sign of a value. -/
def isValueSign (l : Lexer) (rest : List Char) : Bool :=
  atGap rest || (l.inFlow && (atFlowMark rest || l.cursor.index = l.adjacent))

/-- Reads the token that starts with a character, which the given text follows. -/
def readMarked (c : Char) (rest : List Char) (l : Lexer) : Option Lexer :=
  if c = '[' then l.openFlow false
  else if c = '\x7b' then l.openFlow true
  else if c = ']' then l.closeFlow false
  else if c = '\x7d' then l.closeFlow true
  else if c = ',' then l.readComma
  else if c = '-' && atGap rest then l.readEntry
  else if c = '?' && atGap rest then l.readKey
  else if c = ':' && l.isValueSign rest then l.readValue
  else if c = '*' then l.readAnchor .alias
  else if c = '&' then l.readAnchor .anchor
  else if c = '!' then l.readTag
  else if c = '|' && !l.inFlow then l.readBlock false
  else if c = '>' && !l.inFlow then l.readBlock true
  else if c = '\'' || c = '"' then l.readQuoted c
  else if c = '%' || c = '@' || c = '\u0060' then none
  else l.readPlain

/-- Reads the next token, at whose start the lexer is. -/
def readToken (l : Lexer) : Option Lexer :=
  if l.cursor.column = 0 ∧ l.cursor.rest.head? = some '%' then l.readDirective
  else if l.cursor.atDocumentMark '-' then l.readDocumentStart
  else if l.cursor.atDocumentMark '.' then l.readDocumentEnd
  -- Marks of documents stand in the first column, so those are looked for before.
  else if l.cursor.column < l.indent then none
  else match l.cursor.rest with
    | c :: rest => l.readMarked c rest
    | [] => none

/-- The tokens at the end of the text. No key may be missing. -/
def finish (l : Lexer) : Option (List Token) :=
  if (l.key :: l.outerKeys).any (·.any PossibleKey.required) then none
  else some (l.closeTo (-1)).tokens.reverse

/-- Reads on to the end of the text. Every token has a character, so the length of the text is
enough for the bound. -/
def readAll : Nat → Lexer → Option (List Token)
  | 0, _ => none
  | fuel + 1, l =>
    match l.toNext.bind dropOldKey with
    | none => none
    | some l =>
      let l := l.closeTo l.cursor.column
      if l.cursor.rest.isEmpty then l.finish else l.readToken.bind (readAll fuel)

end Lexer

/-- The tokens of a text, which ends before its first null character. -/
def tokens? (cs : List Char) : Option (List Token) :=
  let cs := cs.takeWhile (· ≠ Char.ofNat 0)
  (Lexer.start cs).readAll (cs.length + 1)

end EsotericHost.Yaml
