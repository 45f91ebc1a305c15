/-!
# Places in a YAML text

YAML tells what belongs together by the columns in which lines start, so a text is read with a
cursor that knows the line and the column in which it stands. Two kinds of characters matter
everywhere: the blanks within a line and the ends of lines. A line may end with a carriage return, a
line feed or both.
-/

namespace EsotericHost.Yaml

/-! ## Characters -/

/-- The blanks within a line. -/
def isBlank (c : Char) : Bool := c = ' ' || c = '\t'

/-- The characters that end a line. -/
def isBreak (c : Char) : Bool := c = '\n' || c = '\r'

/-- The marks that part what stands between brackets and braces. -/
def isFlowMark (c : Char) : Bool := c ∈ [',', '[', ']', '\x7b', '\x7d']

/-- The characters of the names of directives and of tags. -/
def isNameChar (c : Char) : Bool := c.isAlphanum || c = '_' || c = '-'

/-- Whether there is no more on the line. -/
def atLineEnd (cs : List Char) : Bool := cs.head?.all isBreak

/-- Whether a blank follows, or no more on the line. -/
def atGap (cs : List Char) : Bool := cs.head?.all fun c => isBlank c || isBreak c

/-- Whether one of the marks between brackets and braces follows. -/
def atFlowMark (cs : List Char) : Bool := cs.head?.any isFlowMark

/-! ## Cursors -/

/-- A place in a text: what follows it, the number of characters before it, the line and the column,
both counted from zero. It is fresh as long as there are only blanks before it on its line. -/
structure Cursor where
  rest : List Char
  index : Nat
  line : Nat
  column : Nat
  fresh : Bool

namespace Cursor

/-- The start of a text. -/
def start (cs : List Char) : Cursor := ⟨cs, 0, 0, 0, true⟩

/-- The place after a number of blanks. -/
def moveBlank (count : Nat) (c : Cursor) : Cursor :=
  { c with rest := c.rest.drop count, index := c.index + count, column := c.column + count }

/-- The place after a number of other characters of the line. -/
def move (count : Nat) (c : Cursor) : Cursor :=
  { c.moveBlank count with fresh := c.fresh && count = 0 }

/-- The place on the same line that the given text follows. -/
def moveTo (rest : List Char) (c : Cursor) : Cursor := c.move (c.rest.length - rest.length)

/-- The place after the end of the line, at which the cursor stands. -/
def nextLine (c : Cursor) : Cursor :=
  match c.rest with
  | '\r' :: '\n' :: rest => ⟨rest, c.index + 2, c.line + 1, 0, true⟩
  | _ :: rest => ⟨rest, c.index + 1, c.line + 1, 0, true⟩
  | [] => c

/-- The end of the line. -/
def lineEnd (c : Cursor) : Cursor := c.move (c.rest.takeWhile (!isBreak ·)).length

/-- Whether a line starts here with three times the given character, which marks the start or the
end of a document. -/
def atDocumentMark (mark : Char) (c : Cursor) : Bool :=
  c.column = 0 && (List.replicate 3 mark).isPrefixOf c.rest && atGap (c.rest.drop 3)

/-- Whether a document starts or ends here. -/
def atDocumentEdge (c : Cursor) : Bool := c.atDocumentMark '-' || c.atDocumentMark '.'

/-! ## Gaps -/

/-- What has been found in a gap between tokens. -/
structure Gap where
  tab : Bool
  space : Bool

/-- The place after blanks and a comment. A comment has to be parted from what is before it. Tabs
may count as blanks or not. -/
def skipGap (tabs : Bool) (c : Cursor) : Option (Gap × Cursor) :=
  let blanks := c.rest.takeWhile fun ch => ch = ' ' || (tabs && ch = '\t')
  let c := c.moveBlank blanks.length
  match c.rest with
  | '#' :: _ => if blanks.isEmpty then none else some (⟨'\t' ∈ blanks, ' ' ∈ blanks⟩, c.lineEnd)
  | _ => some (⟨'\t' ∈ blanks, ' ' ∈ blanks⟩, c)

/-- The end of the line, if there is no more on it than blanks and a comment. -/
def skipEmpty (c : Cursor) : Option Cursor :=
  (c.skipGap true).bind fun (_, c) => if atLineEnd c.rest then some c else none

end Cursor

end EsotericHost.Yaml
