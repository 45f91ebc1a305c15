import EsotericHost.Decimal.Literal
import EsotericHost.Json.Reader
import EsotericHost.Toml.Basic

/-!
# Single values of a settings file

Strings in their four forms, and the words that stand for a truth value, a number or a point in
time. A string of several lines keeps its line endings as they are written. A number may have
underscores between its digits. A point in time is kept as its text; its seconds may be left out.
-/

namespace EsotericHost.Toml

open Text (Read)

/-- Control characters other than the tab stand nowhere in a settings file. -/
def isPlain (c : Char) : Bool :=
  c = '\t' || (32 ≤ c.toNat && c.toNat ≠ 127)

/-- The text after the line ending at its front. -/
def takeNewline? : List Char → Option (List Char)
  | '\n' :: rest => some rest
  | '\r' :: '\n' :: rest => some rest
  | _ => none

/-- Hexadecimal digits of the given number. -/
def readHex (count : Nat) (cs : List Char) : Read Nat :=
  let digits := cs.take count
  if digits.length = count ∧ digits.all fun c => (Json.hexValue? c).isSome then
    some (digits.foldl (fun n c => 16 * n + (Json.hexValue? c).getD 0) 0, cs.drop count)
  else none

/-- The character of an escape, after the backslash. -/
def readEscape : List Char → Read Char
  | 'b' :: rest => some (Char.ofNat 8, rest)
  | 't' :: rest => some ('\t', rest)
  | 'n' :: rest => some ('\n', rest)
  | 'f' :: rest => some (Char.ofNat 12, rest)
  | 'r' :: rest => some ('\r', rest)
  | 'e' :: rest => some (Char.ofNat 27, rest)
  | '"' :: rest => some ('"', rest)
  | '\\' :: rest => some ('\\', rest)
  | 'x' :: rest => scalar (readHex 2 rest)
  | 'u' :: rest => scalar (readHex 4 rest)
  | 'U' :: rest => scalar (readHex 8 rest)
  | _ => none
where
  /-- The character of a code point, if it has one. -/
  scalar : Read Nat → Read Char
    | some (n, rest) => if n.isValidChar then some (Char.ofNat n, rest) else none
    | none => none

/-- The text after blanks and line endings. -/
def skipLines : Nat → List Char → List Char
  | 0, cs => cs
  | fuel + 1, cs =>
    match cs with
    | ' ' :: rest => skipLines fuel rest
    | '\t' :: rest => skipLines fuel rest
    | _ =>
      match takeNewline? cs with
      | some rest => skipLines fuel rest
      | none => cs

/-- The rest of a string between quotes, on one line. -/
def readBasic : Nat → String → List Char → Read String
  | 0, _, _ => none
  | fuel + 1, out, cs =>
    match cs with
    | '"' :: rest => some (out, rest)
    | '\\' :: rest =>
      match readEscape rest with
      | some (c, rest) => readBasic fuel (out.push c) rest
      | none => none
    | c :: rest => if isPlain c then readBasic fuel (out.push c) rest else none
    | [] => none

/-- The rest of a string between apostrophes, on one line. -/
def readLiteral : Nat → String → List Char → Read String
  | 0, _, _ => none
  | fuel + 1, out, cs =>
    match cs with
    | '\'' :: rest => some (out, rest)
    | c :: rest => if isPlain c then readLiteral fuel (out.push c) rest else none
    | [] => none

/-- The end of a string of several lines: three marks, before which two more may belong to it. -/
def closing? (mark : Char) (out : String) (cs : List Char) : Read String :=
  match (cs.takeWhile (· = mark)).length with
  | 0 | 1 | 2 => none
  | n =>
    let inside := min (n - 3) 2
    some (out ++ String.ofList (List.replicate inside mark), cs.drop (inside + 3))

/-- The rest of a string of several lines between triple quotes. A backslash at the end of a line
joins it with the next text. -/
def readBasicLines : Nat → String → List Char → Read String
  | 0, _, _ => none
  | fuel + 1, out, cs =>
    match closing? '"' out cs with
    | some done => some done
    | none =>
      match cs with
      | '\\' :: rest =>
        -- Blanks may stand between the backslash and the end of the line.
        match takeNewline? (rest.dropWhile fun c => c = ' ' || c = '\t') with
        | some rest => readBasicLines fuel out (skipLines rest.length rest)
        | none =>
          match readEscape rest with
          | some (c, rest) => readBasicLines fuel (out.push c) rest
          | none => none
      | '\n' :: rest => readBasicLines fuel (out.push '\n') rest
      | '\r' :: '\n' :: rest => readBasicLines fuel (out ++ "\r\n") rest
      | c :: rest => if isPlain c then readBasicLines fuel (out.push c) rest else none
      | [] => none

/-- The rest of a string of several lines between triple apostrophes. -/
def readLiteralLines : Nat → String → List Char → Read String
  | 0, _, _ => none
  | fuel + 1, out, cs =>
    match closing? '\'' out cs with
    | some done => some done
    | none =>
      match cs with
      | '\n' :: rest => readLiteralLines fuel (out.push '\n') rest
      | '\r' :: '\n' :: rest => readLiteralLines fuel (out ++ "\r\n") rest
      | c :: rest => if isPlain c then readLiteralLines fuel (out.push c) rest else none
      | [] => none

/-- A string in any of its forms. A line ending right after triple marks is not part of it. -/
def readString (cs : List Char) : Read String :=
  let fuel := cs.length + 1
  let first (cs : List Char) : List Char := (takeNewline? cs).getD cs
  match cs with
  | '"' :: '"' :: '"' :: rest => readBasicLines fuel "" (first rest)
  | '\'' :: '\'' :: '\'' :: rest => readLiteralLines fuel "" (first rest)
  | '"' :: rest => readBasic fuel "" rest
  | '\'' :: rest => readLiteral fuel "" rest
  | _ => none

/-! ## Numbers -/

/-- The digits without the underscores, each of which must stand between two digits. -/
def plainDigits? (isDigit : Char → Bool) (cs : List Char) : Option (List Char) :=
  let separated : Bool :=
    cs.head?.any isDigit && cs.getLast?.any isDigit &&
      (cs.zip cs.tail).all fun (a, b) => a ≠ '_' || b ≠ '_'
  if separated && cs.all fun c => isDigit c || c = '_' then some (cs.filter isDigit) else none

/-- Whether the character is a decimal digit. -/
def isDigit (c : Char) : Bool := (Decimal.digitValue? c).isSome

/-- The natural number that digits of a base spell. -/
def natOfBase (base : Nat) (digits : List Char) : Nat :=
  digits.foldl (fun n c => base * n + (Json.hexValue? c).getD 0) 0

/-- An integer, if it fits 64 bits with a sign. -/
def fitting? (n : Int) : Option Toml :=
  if Word.holdsInt n then some (int n) else none

/-- A number in another base. -/
def basedInt? : List Char → Option Toml
  | '0' :: 'x' :: digits => based 16 digits
  | '0' :: 'o' :: digits => based 8 digits
  | '0' :: 'b' :: digits => based 2 digits
  | _ => none
where
  /-- The number that the digits of a base spell. -/
  based (base : Nat) (digits : List Char) : Option Toml :=
    let inBase (c : Char) : Bool := (Json.hexValue? c).any (· < base)
    (plainDigits? inBase digits).bind fun ds => fitting? (natOfBase base ds)

/-- Decimal digits of a whole number, which start with a zero only if that is all. -/
def wholeDigits? (cs : List Char) : Option (List Char) :=
  (plainDigits? isDigit cs).filter fun ds => ds.length = 1 || ds.head? ≠ some '0'

/-- A decimal integer. -/
def decimalInt? (cs : List Char) : Option Toml :=
  let (negative, body) := Decimal.takeSign cs
  (wholeDigits? body).bind fun ds =>
    let n : Int := natOfBase 10 ds
    fitting? (if negative then -n else n)

/-- The exponent of a number, after its letter. -/
def exponent? (cs : List Char) : Option Int :=
  let (negative, body) := Decimal.takeSign cs
  (plainDigits? isDigit body).map fun ds =>
    let n : Int := natOfBase 10 ds
    if negative then -n else n

/-- A number with a point or an exponent or both; one too large is refused. -/
def decimalFloat? (negative : Bool) (cs : List Char) : Option Toml :=
  let isMark (c : Char) : Bool := c = '.' || c = 'e' || c = 'E'
  let whole := cs.takeWhile (!isMark ·)
  let rest := cs.dropWhile (!isMark ·)
  let (fraction, power) := match rest with
    | '.' :: rest =>
      (plainDigits? isDigit (rest.takeWhile (!isMark ·)), rest.dropWhile (!isMark ·))
    | _ => (some [], rest)
  let exponent := match power with
    | [] => some 0
    | c :: rest => if c = '.' then none else exponent? rest
  match wholeDigits? whole, fraction, exponent with
  | some whole, some fraction, some exponent =>
    let x := Decimal.ofDecimal negative (natOfBase 10 (whole ++ fraction))
      (exponent - fraction.length)
    if rest.isEmpty || x.isInf then none else some (float x)
  | _, _, _ => none

/-- A number that is no integer, or one of the words for numbers that are not finite. -/
def float? (cs : List Char) : Option Toml :=
  let (negative, body) := Decimal.takeSign cs
  if body = ['i', 'n', 'f'] then some (float (if negative then -1.0 / 0.0 else 1.0 / 0.0))
  else if body = ['n', 'a', 'n'] then some (float (0.0 / 0.0))
  else decimalFloat? negative body

/-! ## Points in time -/

/-- A number of exactly the given count of digits, at most the given greatest. -/
def readField (count least greatest : Nat) (cs : List Char) : Read (List Char) :=
  let digits := cs.take count
  let n := natOfBase 10 digits
  if digits.length = count ∧ digits.all isDigit ∧ least ≤ n ∧ n ≤ greatest then
    some (digits, cs.drop count)
  else none

/-- The number of days in a month. -/
def daysIn (year month : Nat) : Nat :=
  if month = 2 then
    (if year % 4 = 0 && (year % 100 ≠ 0 || year % 400 = 0) then 29 else 28)
  else if month = 4 ∨ month = 6 ∨ month = 9 ∨ month = 11 then 30
  else 31

/-- Numbers of two digits with a mark between them, each within its bounds. -/
def readFields (mark : Char) : List (Nat × Nat) → List Char → Read (List Char)
  | [], cs => some ([], cs)
  | [(least, greatest)], cs => readField 2 least greatest cs
  | (least, greatest) :: bounds, cs =>
    match readField 2 least greatest cs with
    | some (field, c :: rest) =>
      if c = mark then
        (readFields mark bounds rest).map fun (fields, rest) => (field ++ mark :: fields, rest)
      else none
    | _ => none

/-- A date: its text as written. -/
def readDate (cs : List Char) : Read (List Char) :=
  match readField 4 0 9999 cs with
  | some (year, '-' :: rest) =>
    let days := daysIn (natOfBase 10 year) (natOfBase 10 (rest.take 2))
    (readFields '-' [(1, 12), (1, days)] rest).map fun (day, rest) => (year ++ '-' :: day, rest)
  | _ => none

/-- The places of a second after a point: at most nine of them, and no zeros at their end but one
that stands alone. -/
def readPlaces (cs : List Char) : Read (List Char) :=
  match cs.takeWhile isDigit with
  | [] => none
  | places =>
    let kept := ((places.take 9).reverse.dropWhile (· = '0')).reverse
    some (if kept.isEmpty then ['0'] else kept, cs.dropWhile isDigit)

/-- A time of day: its text. -/
def readTime (cs : List Char) : Read (List Char) :=
  match readFields ':' [(0, 23), (0, 59)] cs with
  | some (minutes, ':' :: rest) =>
    match readField 2 0 60 rest with
    | some (seconds, '.' :: rest) =>
      (readPlaces rest).map fun (places, rest) =>
        (minutes ++ ':' :: seconds ++ '.' :: places, rest)
    | some (seconds, rest) => some (minutes ++ ':' :: seconds, rest)
    | none => none
  | time => time

/-- The distance from universal time: its text, or nothing if there is none. No distance at all has
a plus. -/
def readOffset (cs : List Char) : Read (List Char) :=
  match cs with
  | 'Z' :: rest => some (['Z'], rest)
  | 'z' :: rest => some (['Z'], rest)
  | sign :: rest =>
    if sign = '+' ∨ sign = '-' then
      (readFields ':' [(0, 23), (0, 59)] rest).map fun (distance, rest) =>
        let isZero := distance.all fun c => c = '0' || c = ':'
        ((if isZero then '+' else sign) :: distance, rest)
    else some ([], cs)
  | [] => some ([], cs)

/-- A date, a time, or both: its text. -/
def pointInTime? (cs : List Char) : Option String :=
  match readDate cs with
  | none =>
    match readTime cs with
    | some (time, []) => some (String.ofList time)
    | _ => none
  | some (date, []) => some (String.ofList date)
  | some (date, mark :: rest) =>
    if mark = 'T' ∨ mark = 't' ∨ mark = ' ' then
      match readTime rest with
      | some (time, rest) =>
        match readOffset rest with
        | some (offset, []) => some (String.ofList (date ++ 'T' :: time ++ offset))
        | _ => none
      | none => none
    else none

/-- The value of a word. -/
def ofWord? (cs : List Char) : Option Toml :=
  if cs = ['t', 'r', 'u', 'e'] then some (bool true)
  else if cs = ['f', 'a', 'l', 's', 'e'] then some (bool false)
  else match decimalInt? cs with
    | some v => some v
    | none =>
      match basedInt? cs with
      | some v => some v
      | none =>
        match float? cs with
        | some v => some v
        | none => (pointInTime? cs).map string

/-- The characters of words. -/
def isWordChar (c : Char) : Bool :=
  c.isAlphanum || c = '_' || c = '+' || c = '-' || c = '.' || c = ':'

/-- The value of the word at the front of a text. A date may be parted from a time by a space. -/
def readWord (cs : List Char) : Read Toml :=
  let word := cs.takeWhile isWordChar
  let rest := cs.dropWhile isWordChar
  match (readDate word).filter (·.2.isEmpty), rest with
  | some _, ' ' :: c :: more =>
    if isDigit c then
      let time := (c :: more).takeWhile isWordChar
      (ofWord? (word ++ ' ' :: time)).map (·, (c :: more).dropWhile isWordChar)
    else (ofWord? word).map (·, rest)
  | _, _ => (ofWord? word).map (·, rest)

end EsotericHost.Toml
