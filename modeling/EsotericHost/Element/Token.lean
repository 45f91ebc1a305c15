import EsotericHost.Text.Blank

/-!
# Tokens

A source is a row of commands of one character each and of words between them. Blank characters
separate words and are nothing else. Square brackets repeat what is between them a counted number
of times, braces as long as a condition holds; the two kinds must nest. A bracket knows the index of
its partner.
-/

namespace EsotericHost.Element

/-- The two kinds of loop. -/
inductive Loop where
  | counted
  | conditional
  deriving Repr, DecidableEq

/-- The bracket that opens a loop. -/
def Loop.opener : Loop → Char
  | counted => '['
  | conditional => '\x7b'

/-- The bracket that closes a loop. -/
def Loop.closer : Loop → Char
  | counted => ']'
  | conditional => '\x7d'

/-- Operations on the two topmost numbers. -/
inductive Arithmetic where
  | add
  | sub
  | mul
  | div
  | rem
  | power
  deriving Repr, DecidableEq

/-- Comparisons of the two topmost values. -/
inductive Comparison where
  | less
  | greater
  | same
  deriving Repr, DecidableEq

/-- The commands of one character, apart from the brackets. -/
inductive Command where
  | print
  | input
  | assign
  | lookUp
  | arithmetic (operation : Arithmetic)
  | compare (comparison : Comparison)
  | not
  | and
  | or
  | toControl
  | fromControl
  | test
  | copies
  | toNumber
  | textLength
  | splitFirst
  | splitLast
  | concat
  | character
  | raise
  deriving Repr, DecidableEq

/-- The command of a character. -/
def Command.ofChar? (c : Char) : Option Command :=
  match c with
  | '\x60' => some print
  | '_' => some input
  | ';' => some assign
  | '~' => some lookUp
  | '+' => some (arithmetic .add)
  | '-' => some (arithmetic .sub)
  | '*' => some (arithmetic .mul)
  | '/' => some (arithmetic .div)
  | '%' => some (arithmetic .rem)
  | '^' => some (arithmetic .power)
  | '<' => some (compare .less)
  | '>' => some (compare .greater)
  | '=' => some (compare .same)
  | '!' => some not
  | '&' => some and
  | '|' => some or
  | '"' => some toControl
  | '\'' => some fromControl
  | '?' => some test
  | ':' => some copies
  | '#' => some toNumber
  | '$' => some textLength
  | '(' => some splitFirst
  | ')' => some splitLast
  | '.' => some concat
  | ',' => some character
  | '@' => some raise
  | _ => none

/-- What a token does. A bracket carries the index of its partner where it needs it; that of an
opening one is known only when the partner has been read. -/
inductive Op where
  | word (text : List Char)
  | command (c : Command)
  | repeatStart (close : Option Nat)
  | repeatEnd (start : Nat)
  | whileStart
  | whileEnd (start : Nat)
  deriving Repr, DecidableEq

/-- A token and the place of its first character in the source. -/
structure Token where
  position : Nat
  op : Op
  deriving Repr, DecidableEq

/-- A bracket without a partner, and its place in the source. -/
structure Unmatched where
  bracket : Char
  position : Nat
  deriving Repr, DecidableEq

/-- What a character is to the reader of tokens. -/
inductive Class where
  | blank
  | opening (loop : Loop)
  | closing (loop : Loop)
  | command (c : Command)
  | letter
  deriving Repr, DecidableEq

/-- The class of a character. -/
def Class.of (c : Char) : Class :=
  if c = '[' then opening .counted
  else if c = ']' then closing .counted
  else if c = '\x7b' then opening .conditional
  else if c = '\x7d' then closing .conditional
  else match Command.ofChar? c with
    | some c => command c
    | none => if Text.isBlank c then blank else letter

/-- A bracket that waits for its partner: the index of its token, its kind, and its place. -/
structure Opened where
  index : Nat
  loop : Loop
  position : Nat
  deriving Repr, DecidableEq

/-- The tokens read so far, the brackets that wait, innermost first, and the word that is being
read, with its last character first. -/
structure Scan where
  tokens : Array Token
  opened : List Opened
  word : Option (Nat × List Char)
  opened_lt : ∀ bracket ∈ opened, bracket.index < tokens.size := by simp

namespace Scan

/-- Nothing read yet. -/
def start : Scan := { tokens := #[], opened := [], word := none }

/-- Adds a token. -/
def push (scan : Scan) (position : Nat) (op : Op) : Scan where
  tokens := scan.tokens.push ⟨position, op⟩
  opened := scan.opened
  word := scan.word
  opened_lt bracket h := by
    have := scan.opened_lt bracket h
    simp only [Array.size_push]
    omega

/-- Ends the word that is being read. -/
def endWord (scan : Scan) : Scan :=
  match scan.word with
  | none => scan
  | some (position, letters) => { scan.push position (.word letters.reverse) with word := none }

/-- Adds an opening bracket, without a partner until it meets the right one. -/
def openLoop (scan : Scan) (position : Nat) (loop : Loop) : Scan where
  tokens := scan.tokens.push ⟨position,
    match loop with
    | .counted => .repeatStart none
    | .conditional => .whileStart⟩
  opened := ⟨scan.tokens.size, loop, position⟩ :: scan.opened
  word := scan.word
  opened_lt bracket h := by
    simp only [Array.size_push]
    rcases List.mem_cons.1 h with rfl | h
    · exact Nat.lt_succ_self _
    · exact Nat.lt_succ_of_lt (scan.opened_lt bracket h)

/-- Adds a closing bracket, if it matches the innermost one that waits. -/
def closeLoop (scan : Scan) (position : Nat) (loop : Loop) : Except Unmatched Scan :=
  match h : scan.opened with
  | [] => .error ⟨loop.closer, position⟩
  | partner :: outer =>
    have partner_lt : partner.index < scan.tokens.size :=
      scan.opened_lt _ (by rw [h]; exact List.mem_cons_self)
    have outer_lt : ∀ bracket ∈ outer, bracket.index < scan.tokens.size := fun bracket hb =>
      scan.opened_lt bracket (by rw [h]; exact List.mem_cons_of_mem _ hb)
    -- Brackets of the other kind in between do not match: loops must nest.
    if partner.loop ≠ loop then .error ⟨loop.closer, position⟩
    else match loop with
      | .counted =>
        let here := scan.tokens.size
        let matched : Scan :=
          { tokens := scan.tokens.set partner.index ⟨partner.position, .repeatStart (some here)⟩
            opened := outer
            word := scan.word
            opened_lt := by simpa using outer_lt }
        .ok (matched.push position (.repeatEnd partner.index))
      | .conditional =>
        let matched : Scan := { scan with opened := outer, opened_lt := outer_lt }
        .ok (matched.push position (.whileEnd partner.index))

/-- Reads one character. -/
def next (scan : Scan) (position : Nat) (c : Char) : Except Unmatched Scan :=
  match Class.of c with
  | .letter =>
    match scan.word with
    | none => .ok { scan with word := some (position, [c]) }
    -- A word has the place of its first letter.
    | some (start, letters) => .ok { scan with word := some (start, c :: letters) }
  | .blank => .ok scan.endWord
  | .command c => .ok (scan.endWord.push position (.command c))
  | .opening loop => .ok (scan.endWord.openLoop position loop)
  | .closing loop => scan.endWord.closeLoop position loop

/-- Reads on from a position to the end of the source. -/
def read (scan : Scan) (position : Nat) : List Char → Except Unmatched (Array Token)
  | [] =>
    match scan.opened with
    | [] => .ok scan.endWord.tokens
    | innermost :: _ => .error ⟨innermost.loop.opener, innermost.position⟩
  | c :: rest =>
    match scan.next position c with
    | .ok scan => scan.read (position + 1) rest
    | .error unmatched => .error unmatched

end Scan

/-- The tokens of a source. -/
def tokenize (source : List Char) : Except Unmatched (Array Token) :=
  Scan.start.read 0 source

end EsotericHost.Element
