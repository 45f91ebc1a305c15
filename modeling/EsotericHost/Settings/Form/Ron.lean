import EsotericHost.Settings.Form.Json5

/-!
# Reading RON

A settings file in the form of RON has lists in brackets, maps in braces, and in parentheses values
with or without names for them. `None` and `()` are nothing, and what stands in `Some` is the value
itself. A name in front of parentheses does not count. Lines at the front of the text may enable
extensions of the form.
-/

namespace EsotericHost.Settings.Ron

open Text (Read)

/-! ## Between the tokens -/

/-- The blanks between tokens. -/
def isBlank (c : Char) : Bool :=
  c ∈ [' ', '\t', '\n', '\r', '\u000B', '\u000C', '\u0085', '\u200E', '\u200F', '\u2028', '\u2029']

/-- The text after the end of a comment, in which other comments may be nested. -/
def closeComment : Nat → List Char → Option (List Char)
  | 0, rest => some rest
  | depth + 1, '*' :: '/' :: rest => closeComment depth rest
  | depth + 1, '/' :: '*' :: rest => closeComment (depth + 2) rest
  | depth + 1, _ :: rest => closeComment (depth + 1) rest
  | _ + 1, [] => none

/-- The text after blanks and comments. -/
def skipGaps : Nat → List Char → Option (List Char)
  | 0, _ => none
  | fuel + 1, cs =>
    match cs.dropWhile isBlank with
    | '/' :: '/' :: rest => skipGaps fuel (rest.dropWhile (· ≠ '\n'))
    | '/' :: '*' :: rest => (closeComment 1 rest).bind (skipGaps fuel)
    | rest => some rest

/-- The text after blanks and comments, with what comes next. -/
def next (cs : List Char) : Option (List Char) :=
  skipGaps (cs.length + 1) cs

/-! ## Texts -/

/-- What an escape of one letter stands for. -/
def unescape? (c : Char) : Option Char :=
  match c with
  | '\'' => some '\''
  | '"' => some '"'
  | '\\' => some '\\'
  | 'n' => some '\n'
  | 'r' => some '\r'
  | 't' => some '\t'
  | '0' => some (Char.ofNat 0)
  | _ => none

/-- The character whose bytes start with the given ones. The bytes after those are escapes of their
own, of which there are at most `count`. -/
def readBytes (bytes : ByteArray) : Nat → List Char → Read Char
  | count, cs =>
    match (String.fromUTF8? bytes).bind (·.toList.head?), count, cs with
    -- Complete as soon as the bytes are those of a character.
    | some c, _, _ => some (c, cs)
    | none, count + 1, '\\' :: 'x' :: a :: b :: rest =>
      match Json.hexValue? a, Json.hexValue? b with
      | some a, some b => readBytes (bytes.push (16 * a + b).toUInt8) count rest
      | _, _ => none
    | none, _, _ => none

/-- An escape, after the backslash. A character of several bytes needs several escapes, of which
there may be `count` after this one. -/
def readEscape (count : Nat) : List Char → Read Char
  | 'x' :: rest => readBytes .empty (count + 1) ('\\' :: 'x' :: rest)
  | 'u' :: '\x7b' :: rest =>
    let digits := rest.takeWhile (· ≠ '\x7d')
    if 0 < digits.length ∧ digits.length ≤ 6 then
      (Json.readCode digits.length rest).map fun (c, rest) => (c, rest.drop 1)
    else none
  | c :: rest => (unescape? c).map (·, rest)
  | [] => none

/-- The rest of a text between quotes, appended to what has been read of it. -/
def readText : Nat → String → List Char → Read String
  | 0, _, _ => none
  | fuel + 1, out, cs =>
    match cs with
    | '"' :: rest => some (out, rest)
    | '\\' :: rest =>
      match readEscape 3 rest with
      | some (c, rest) => readText fuel (out.push c) rest
      | none => none
    | c :: rest => readText fuel (out.push c) rest
    | [] => none

/-- The rest of a text without escapes, up to a quote that the given number of signs follows. -/
def readRaw (signs : Nat) : String → List Char → Read String
  | _, [] => none
  | out, c :: rest =>
    if c = '"' ∧ (List.replicate signs '#').isPrefixOf rest then some (out, rest.drop signs)
    else readRaw signs (out.push c) rest

/-- A text between quotes, with escapes or without. -/
def readString (cs : List Char) : Read String :=
  match cs with
  | '"' :: rest => readText cs.length "" rest
  | 'r' :: rest =>
    match rest.dropWhile (· = '#') with
    | '"' :: body => readRaw (rest.takeWhile (· = '#')).length "" body
    | _ => none
  | _ => none

/-- A single character between apostrophes. -/
def readChar : List Char → Read Char
  | '\'' :: '\\' :: rest =>
    match readEscape 0 rest with
    | some (c, '\'' :: rest) => some (c, rest)
    | _ => none
  | '\'' :: c :: '\'' :: rest => some (c, rest)
  | _ => none

/-! ## Names -/

/-- The characters of names. A digit may not be the first of them. -/
def isNameChar (c : Char) : Bool := Text.isAlphanumeric c || c = '_'

/-- The characters of names after the mark `r#`. -/
def isRawNameChar (c : Char) : Bool := isNameChar c || c = '.' || c = '+' || c = '-'

/-- Whether a text or a byte in quotes starts here and not a name. -/
def startsQuoted (cs : List Char) : Bool :=
  ["b\"", "b'", "br#", "br\"", "r\"", "r#\"", "r##"].any (·.toList.isPrefixOf cs)

/-- A name. -/
def readName (cs : List Char) : Read String :=
  if startsQuoted cs then none
  else match cs with
    | 'r' :: '#' :: rest =>
      let name := rest.takeWhile isRawNameChar
      if name.isEmpty then none else some (String.ofList name, rest.dropWhile isRawNameChar)
    | c :: _ =>
      if isNameChar c && !c.isDigit then
        some (String.ofList (cs.takeWhile isNameChar), cs.dropWhile isNameChar)
      else none
    | [] => none

/-- The text after the given word, unless the word goes on. -/
def readWord? (word : String) (cs : List Char) : Option (List Char) :=
  let rest := cs.drop word.length
  if word.toList.isPrefixOf cs && !rest.head?.any isNameChar then some rest else none

/-! ## Numbers -/

/-- The characters of integers without their sign, underscores among them. -/
def isIntChar (c : Char) : Bool := (Json.hexValue? c).isSome || c = '_'

/-- The characters of doubles. -/
def isFloatChar (c : Char) : Bool := c.isDigit || c ∈ ['e', 'E', '.', '+', '-', '_']

/-- The suffixes of integers, with the least and the greatest integer that may have them. -/
def intSuffixes : List (String × Int × Int) :=
  [("i8", -128, 127), ("i16", -32768, 32767), ("i32", -2147483648, 2147483647),
    ("i64", -Word.intBound, Word.intBound - 1), ("u8", 0, 255), ("u16", 0, 65535),
    ("u32", 0, 4294967295), ("u64", 0, 2 * Word.intBound - 1)]

/-- An integer after its last digit, where it may have a suffix. Beyond 64 bits with a sign there is
no integer. -/
def readIntSuffix (n : Int) (cs : List Char) : Read Tree :=
  let suffix? := intSuffixes.findSome? fun (suffix, least, greatest) =>
    (readWord? suffix cs).map fun rest => (least ≤ n && n ≤ greatest, rest)
  match suffix? with
  | some (fits, rest) =>
    if !fits then none
    else some (if Word.holdsInt n then .int n else .float (Float.ofInt n), rest)
  | none => if Word.holdsInt n then some (.int n, cs) else none

/-- The base of an integer, and its digits. -/
def takeBase : List Char → Nat × List Char
  | '0' :: 'x' :: rest => (16, rest)
  | '0' :: 'o' :: rest => (8, rest)
  | '0' :: 'b' :: rest => (2, rest)
  | cs => (10, cs)

/-- An integer in decimal, hexadecimal, octal or binary. An underscore may follow any digit. -/
def readInt (cs : List Char) : Read Tree :=
  let (negative, body) := Decimal.takeSign cs
  let (base, body) := takeBase body
  let digits := body.takeWhile isIntChar
  if digits.head?.all (· = '_') then none
  else match (digits.filter (· ≠ '_')).mapM fun c => (Json.hexValue? c).filter (· < base) with
    | none => none
    | some ds =>
      let n : Int := (ds.foldl (fun n d => base * n + d) 0 : Nat)
      readIntSuffix (if negative then -n else n) (body.dropWhile isIntChar)

/-- A double without its underscores, which may follow a digit or the sign of an exponent. `allowed`
says whether one may come next. -/
def dropUnderscores (allowed : Bool) : List Char → Option (List Char)
  | [] => some []
  | c :: rest =>
    if c = '_' then if allowed then dropUnderscores allowed rest else none
    else
      let allowed := if c = '+' || c = '-' then allowed else c ≠ '.'
      (dropUnderscores allowed rest).map (c :: ·)

/-- The words for doubles that are not finite, with their suffixes. -/
def endlessWords : List (String × Float) :=
  ["", "f32", "f64"].flatMap fun suffix =>
    [("inf" ++ suffix, 1.0 / 0.0), ("NaN" ++ suffix, 0.0 / 0.0)]

/-- A double, which may have a suffix. -/
def readFloat (cs : List Char) : Read Tree :=
  let (negative, body) := Decimal.takeSign cs
  let endless? := endlessWords.findSome? fun (word, x) =>
    (readWord? word body).map fun rest => (Tree.float (if negative then -x else x), rest)
  match endless? with
  | some r => some r
  | none =>
    let rest := cs.dropWhile isFloatChar
    match (dropUnderscores false (cs.takeWhile isFloatChar)).bind Decimal.readFloat? with
    | none => none
    | some x =>
      match readWord? "f32" rest, readWord? "f64" rest with
      | some rest, _ => some (.float x.toFloat32.toFloat, rest)
      | none, some rest => some (.float x, rest)
      | none, none => some (.float x, rest)

/-- The byte between apostrophes, after its mark. -/
def readByte (cs : List Char) : Read Tree :=
  match cs with
  | '\'' :: '\\' :: 'x' :: a :: b :: '\'' :: rest =>
    match Json.hexValue? a, Json.hexValue? b with
    | some a, some b => some (.int (16 * a + b), rest)
    | _, _ => none
  | '\'' :: '\\' :: c :: '\'' :: rest => (unescape? c).map fun c => (.int c.toNat, rest)
  | '\'' :: c :: '\'' :: rest =>
    if c.toNat < 128 && c ≠ '\\' then some (.int c.toNat, rest) else none
  | _ => none

/-- A number. An integer that is too large is a double, as is what has more characters of doubles
than of integers. -/
def readNumber (cs : List Char) : Read Tree :=
  let body := (Decimal.takeSign cs).2
  if (body.takeWhile isIntChar).length < (body.takeWhile isFloatChar).length then readFloat cs
  -- An `e` is a digit of integers as well, so a double with nothing else gets here.
  else (readInt cs).or (readFloat cs)

/-! ## Keys -/

/-- The name of a value in parentheses, and the text after its colon. -/
def readFieldName (cs : List Char) : Read String :=
  match readName cs with
  | some (name, rest) =>
    match next rest with
    | some (':' :: rest) => some (name, rest)
    | _ => none
  | none => none

/-- A key of a map, which is a text or a character, and the text after its colon. -/
def readMapKey (cs : List Char) : Read String :=
  let key? := match cs with
    | '\'' :: _ => (readChar cs).map fun (c, rest) => (Text.single c, rest)
    | _ => readString cs
  match key? with
  | some (key, rest) =>
    match next rest with
    | some (':' :: rest) => some (key, rest)
    | _ => none
  | none => none

/-! ## Values -/

/-- The end of a value in `Some`, before which a comma may stand. -/
def closeSome (r : Tree × List Char) : Read Tree :=
  let rest? := match next r.2 with
    | some (',' :: rest) => next rest
    | rest? => rest?
  match rest? with
  | some (')' :: rest) => some (r.1, rest)
  | _ => none

mutual

/-- A value. The bound goes down with every value, item and member; twice the length of the text is
enough. -/
def readValue : Nat → List Char → Read Tree
  | 0, _ => none
  | fuel + 1, cs =>
    match cs with
    | '[' :: rest => (next rest).bind (readItems fuel ']' [])
    | '\x7b' :: rest => (next rest).bind (readMembers fuel readMapKey '\x7d' [])
    | '(' :: ')' :: rest => some (.nothing, rest)
    | '(' :: rest => readGroup fuel rest
    | '\'' :: _ => (readChar cs).map fun (c, rest) => (.string (Text.single c), rest)
    | 'b' :: '\'' :: _ => readByte (cs.drop 1)
    | _ =>
      match readName cs with
      | some (name, rest) => readNamed fuel (cs.take 2 = ['r', '#']) name rest
      | none =>
        match readString cs with
        | some (s, rest) => some (.string s, rest)
        | none => readNumber cs

/-- The value of a name and of what stands in the parentheses after it. A raw name is no word of its
own. -/
def readNamed : Nat → Bool → String → List Char → Read Tree
  | 0, _, _, _ => none
  | fuel + 1, raw, name, cs =>
    if raw then readUnnamed fuel cs
    else if name = "true" then some (.bool true, cs)
    else if name = "false" then some (.bool false, cs)
    else if name = "None" then some (.nothing, cs)
    else if name = "Some" then
      match next cs with
      | some ('(' :: rest) => ((next rest).bind (readValue fuel)).bind closeSome
      | _ => none
    else match endlessWords.lookup name with
      | some x => some (.float x, cs)
      | none => readUnnamed fuel cs

/-- What stands in the parentheses after a name, if there are any. -/
def readUnnamed : Nat → List Char → Read Tree
  | 0, _ => none
  | fuel + 1, cs =>
    match next cs with
    | some ('(' :: rest) => readGroup fuel rest
    | some _ => some (.nothing, cs)
    | none => none

/-- The rest of a group in parentheses, which has members or items. -/
def readGroup : Nat → List Char → Read Tree
  | 0, _ => none
  | fuel + 1, cs =>
    match next cs with
    | none => none
    | some cs =>
      -- A first name with a colon decides for all that follows.
      if (readFieldName cs).isSome then readMembers fuel readFieldName ')' [] cs
      else readItems fuel ')' [] cs

/-- The rest of a row of items up to its closing mark; the items so far are given last first. -/
def readItems : Nat → Char → List Tree → List Char → Read Tree
  | 0, _, _, _ => none
  | fuel + 1, close, done, cs =>
    if cs.head? = some close then some (.array done.reverse, cs.drop 1)
    else match readValue fuel cs with
      | none => none
      | some (v, rest) =>
        match next rest with
        | some (',' :: rest) => (next rest).bind (readItems fuel close (v :: done))
        | some rest =>
          if rest.head? = some close then some (.array (v :: done).reverse, rest.drop 1) else none
        | none => none

/-- The rest of a row of members up to its closing mark; the members so far are given. -/
def readMembers : Nat → (List Char → Read String) → Char → List (String × Tree) → List Char →
    Read Tree
  | 0, _, _, _, _ => none
  | fuel + 1, readKey, close, done, cs =>
    if cs.head? = some close then some (.table done, cs.drop 1)
    else match readKey cs with
      | none => none
      | some (key, rest) =>
        match (next rest).bind (readValue fuel) with
        | none => none
        | some (v, rest) =>
          let done := Table.insert key v done
          match next rest with
          | some (',' :: rest) => (next rest).bind (readMembers fuel readKey close done)
          | some rest =>
            if rest.head? = some close then some (.table done, rest.drop 1) else none
          | none => none

end

/-! ## Texts -/

/-- The text after the given tokens of one character each. -/
def skipMarks : List Char → List Char → Option (List Char)
  | [], cs => some cs
  | mark :: marks, cs =>
    match next cs with
    | some (c :: rest) => if c = mark then skipMarks marks rest else none
    | _ => none

/-- The names of extensions that may be enabled. None of them changes how settings are read. -/
def extensions : List String :=
  ["unwrap_newtypes", "implicit_some", "unwrap_variant_newtypes", "explicit_struct_names"]

/-- The text after a row of names of extensions. -/
def skipExtensions : Nat → List Char → Option (List Char)
  | 0, _ => none
  | fuel + 1, cs =>
    match (next cs).bind readName with
    | none => none
    | some (name, rest) =>
      if name ∉ extensions then none
      else match next rest with
        | some (',' :: rest) =>
          match next rest with
          | some (c :: rest) =>
            if isNameChar c then skipExtensions fuel (c :: rest) else some (c :: rest)
          | rest => rest
        | rest => rest

/-- The text after the lines at its front that enable extensions. -/
def skipAttributes : Nat → List Char → Option (List Char)
  | 0, _ => none
  | fuel + 1, cs =>
    match next cs with
    | some ('#' :: rest) =>
      ((((skipMarks ['!', '['] rest).bind next).bind (readWord? "enable")).bind
        (skipMarks ['('])).bind fun rest =>
          ((skipExtensions fuel rest).bind (skipMarks [')', ']'])).bind (skipAttributes fuel)
    | rest => rest

/-- The value in a text. -/
def read? (text : String) : Option Tree :=
  let cs := text.toList
  match (skipAttributes (cs.length + 1) cs).bind (readValue (4 * cs.length + 4)) with
  | some (v, rest) => if next rest = some [] then some v else none
  | none => none

end EsotericHost.Settings.Ron
