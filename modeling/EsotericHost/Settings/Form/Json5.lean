import EsotericHost.Json.Reader
import EsotericHost.Settings.Tree
import EsotericHost.Text.Alphanumeric
import EsotericHost.Text.Blank
import EsotericHost.Text.Scalar

/-!
# Reading JSON5

A settings file in the form of JSON5 is written like JSON, with more freedom: comments, commas after
the last item, keys without quotes, apostrophes around strings, numbers with a plus, in hexadecimal
or without digits on one side of the point.
-/

namespace EsotericHost.Settings.Json5

open Text (Read)

/-! ## Between the tokens -/

/-- The ends of lines. -/
def isLineEnd (c : Char) : Bool :=
  c = '\n' || c = '\r' || c = '\u2028' || c = '\u2029'

/-- The blanks between tokens. -/
def isBlank (c : Char) : Bool :=
  (Text.isBlank c && c ≠ '\u0085') || c = '\uFEFF'

/-- The text after the end of a comment that has been opened by a slash and an asterisk. -/
def closeComment : List Char → Option (List Char)
  | '*' :: '/' :: rest => some rest
  | _ :: rest => closeComment rest
  | [] => none

/-- The text after blanks and comments. -/
def skipGaps : Nat → List Char → Option (List Char)
  | 0, _ => none
  | fuel + 1, cs =>
    match cs.dropWhile isBlank with
    | '/' :: '/' :: rest => skipGaps fuel (rest.dropWhile (!isLineEnd ·))
    | '/' :: '*' :: rest => (closeComment rest).bind (skipGaps fuel)
    | rest => some rest

/-- The text after blanks and comments, with what comes next. -/
def next (cs : List Char) : Option (List Char) :=
  skipGaps (cs.length + 1) cs

/-! ## Strings and keys -/

/-- What stands for an escape in a string, after the backslash. A line ending stands for nothing. -/
def readEscape : List Char → Read String
  | '\r' :: '\n' :: rest => some ("", rest)
  | 'x' :: rest => (Json.readCode 2 rest).map fun (c, rest) => (Text.single c, rest)
  | 'u' :: rest =>
    match Json.readUnicode rest with
    | some (c, rest) => some (Text.single c, rest)
    | none => none
  | '0' :: rest => some (Text.single (Char.ofNat 0), rest)
  | 'v' :: rest => some (Text.single (Char.ofNat 11), rest)
  | c :: rest =>
    if isLineEnd c then some ("", rest)
    else if c.isDigit then none
    else some (Text.single ((Json.unescape? c).getD c), rest)
  | [] => none

/-- The rest of a string up to its closing mark, appended to what has been read of it. -/
def readText (mark : Char) : Nat → String → List Char → Read String
  | 0, _, _ => none
  | fuel + 1, out, cs =>
    match cs with
    | '\\' :: rest =>
      match readEscape rest with
      | some (text, rest) => readText mark fuel (out ++ text) rest
      | none => none
    | c :: rest =>
      if c = mark then some (out, rest)
      else if isLineEnd c then none
      else readText mark fuel (out.push c) rest
    | [] => none

/-- The characters of a key without quotes; a digit may not be the first of them. -/
def isNameChar (c : Char) : Bool :=
  Text.isAlphanumeric c || c = '$' || c = '_'

/-- A key. -/
def readKey (cs : List Char) : Read String :=
  match cs with
  | '"' :: rest => readText '"' cs.length "" rest
  | '\'' :: rest => readText '\'' cs.length "" rest
  | c :: _ =>
    if isNameChar c ∧ ¬ c.isDigit then
      some (String.ofList (cs.takeWhile isNameChar), cs.dropWhile isNameChar)
    else none
  | [] => none

/-! ## Numbers and words -/

/-- A number in hexadecimal, after the mark of its base. It has at most 32 bits. -/
def hexadecimal? (cs : List Char) : Option Tree :=
  match cs.mapM Json.hexValue? with
  | none | some [] => none
  | some digits =>
    let n := digits.foldl (fun n d => 16 * n + d) 0
    -- The bound is on the number and not on its digits, so zeros may stand in front.
    if n < Nat.pow 16 8 then some (.int n) else none

/-- A number in decimal, without its sign: digits on at least one side of a point, no zero before
other digits, and an exponent. -/
def isDecimal (cs : List Char) : Bool :=
  let (whole, rest) := Decimal.takeDigits cs
  let (places, rest) := match rest with
    | '.' :: after => Decimal.takeDigits after
    | _ => ([], rest)
  let power := match rest with
    | [] => true
    | c :: after =>
      (c = 'e' || c = 'E') && (Decimal.readNat? (Decimal.takeSign after).2).isSome
  !(whole.isEmpty && places.isEmpty) && (whole.length ≤ 1 || whole.head? ≠ some 0) && power

/-- The number that a word stands for. One with neither point nor exponent is an integer of 64
bits; any other has to be finite. -/
def number? (cs : List Char) : Option Tree :=
  let (negative, body) := Decimal.takeSign cs
  if body = "Infinity".toList then
    some (.float (if negative then -1.0 / 0.0 else 1.0 / 0.0))
  else if body = "NaN".toList then some (.float (0.0 / 0.0))
  else if !isDecimal body then none
  else if body.all Char.isDigit then (Decimal.readInt64? cs).map .int
  else (Decimal.readFloat? cs).bind fun x => if x.isInf then none else some (.float x)

/-- The value of a word. -/
def ofWord? (cs : List Char) : Option Tree :=
  match cs with
  | '0' :: 'x' :: digits | '0' :: 'X' :: digits => hexadecimal? digits
  | _ =>
    if cs = "null".toList then some .nothing
    else if cs = "true".toList then some (.bool true)
    else if cs = "false".toList then some (.bool false)
    else number? cs

/-- The characters of words. -/
def isWordChar (c : Char) : Bool :=
  c.isAlphanum || c = '+' || c = '-' || c = '.'

/-! ## Values -/

mutual

/-- A value. The bound goes down with every value, item and member; twice the length of the text is
enough. -/
def readValue : Nat → List Char → Read Tree
  | 0, _ => none
  | fuel + 1, cs =>
    match cs with
    | '"' :: rest => (readText '"' cs.length "" rest).map fun (s, rest) => (.string s, rest)
    | '\'' :: rest => (readText '\'' cs.length "" rest).map fun (s, rest) => (.string s, rest)
    | '[' :: rest =>
      match next rest with
      | some (']' :: rest) => some (.array [], rest)
      | some rest => readItems fuel [] rest
      | none => none
    | '\x7b' :: rest =>
      match next rest with
      | some ('\x7d' :: rest) => some (.table [], rest)
      | some rest => readMembers fuel [] rest
      | none => none
    | _ => (ofWord? (cs.takeWhile isWordChar)).map (·, cs.dropWhile isWordChar)

/-- The rest of an array, from an item on; the items before it are given last first. -/
def readItems : Nat → List Tree → List Char → Read Tree
  | 0, _, _ => none
  | fuel + 1, done, cs =>
    match readValue fuel cs with
    | none => none
    | some (v, rest) =>
      match next rest with
      | some (']' :: rest) => some (.array (v :: done).reverse, rest)
      | some (',' :: rest) =>
        match next rest with
        | some (']' :: rest) => some (.array (v :: done).reverse, rest)
        | some rest => readItems fuel (v :: done) rest
        | none => none
      | _ => none

/-- The rest of an object, from a key on; the members before it are given. -/
def readMembers : Nat → List (String × Tree) → List Char → Read Tree
  | 0, _, _ => none
  | fuel + 1, done, cs =>
    match readMember fuel cs with
    | none => none
    | some ((key, v), rest) =>
      let done := Table.insert key v done
      match next rest with
      | some ('\x7d' :: rest) => some (.table done, rest)
      | some (',' :: rest) =>
        match next rest with
        | some ('\x7d' :: rest) => some (.table done, rest)
        | some rest => readMembers fuel done rest
        | none => none
      | _ => none

/-- A member of an object. -/
def readMember : Nat → List Char → Read (String × Tree)
  | 0, _ => none
  | fuel + 1, cs =>
    match readKey cs with
    | none => none
    | some (key, rest) =>
      match next rest with
      | some (':' :: rest) =>
        ((next rest).bind (readValue fuel)).map fun (v, rest) => ((key, v), rest)
      | _ => none

end

/-- The value in a text. -/
def read? (text : String) : Option Tree :=
  let cs := text.toList
  match (next cs).bind (readValue (2 * cs.length + 2)) with
  | some (v, rest) => if next rest = some [] then some v else none
  | none => none

end EsotericHost.Settings.Json5
