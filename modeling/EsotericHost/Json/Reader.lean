import EsotericHost.Decimal.Literal
import EsotericHost.Json.Basic
import EsotericHost.Text.Read

/-!
# Reading JSON

`Json.read?` reads a text that holds one value with blanks around it. It refuses control
characters in strings, escapes for half of a surrogate pair, numbers beyond the doubles, and
arrays and objects nested deeper than the given depth. Members of an object are kept as they are
written, repeated keys included.

A number with neither point nor exponent that fits 64 bits is an integer. For any other number the
leading digits that fit 64 bits make a double, which one multiplication or division by a power of
ten scales; up to fifteen digits and powers up to the twenty-second this is the nearest double. If
the digits before the point do not all fit, those after it are tried anew.

The functions count down a bound on the remaining work; twice the length of the text is enough,
since a value takes at most two calls for each of its characters.
-/

namespace EsotericHost.Json

open Text (Read)

/-- The depth of nesting that the host accepts. -/
def maxDepth : Nat := 127

/-- The text after the blanks at its front. -/
def skipBlanks (cs : List Char) : List Char :=
  cs.dropWhile fun c => c = ' ' || c = '\n' || c = '\t' || c = '\r'

/-! ## Numbers -/

/-- The power of ten as a double. -/
def tenPow (k : Nat) : Float :=
  Decimal.nearest false (Nat.pow 10 k) 1

/-- A finite double, or nothing if it is infinite. -/
def finite? (x : Float) : Option Float :=
  if x.isInf then none else some x

/-- The double `significand * 10 ^ exponent` by one multiplication or division; a power below
`10 ^ -308` is reached by first dividing by `10 ^ 308`, as often as the bound allows. -/
def scale? : Nat → Float → Int → Option Float
  | 0, _, _ => none
  | fuel + 1, x, exponent =>
    if exponent.natAbs ≤ 308 then
      if 0 ≤ exponent then finite? (x * tenPow exponent.natAbs)
      else some (x / tenPow exponent.natAbs)
    else if x == 0.0 then some x
    else if 0 ≤ exponent then none
    else scale? fuel (x / tenPow 308) (exponent + 308)

/-- The digits at the front that still fit 64 bits when appended to `n`, and their count. -/
def takeSignificant (n : Nat) (count : Nat) : List Char → Nat × Nat × List Char
  | [] => (n, count, [])
  | c :: rest =>
    match Decimal.digitValue? c with
    | some d =>
      -- The digits beyond are dropped by the caller, without rounding.
      if Word.holdsNat (10 * n + d) then takeSignificant (10 * n + d) (count + 1) rest
      else (n, count, c :: rest)
    | none => (n, count, c :: rest)

/-- The digits at the front dropped, and their count. -/
def dropDigits (count : Nat) : List Char → Nat × List Char
  | [] => (count, [])
  | c :: rest =>
    if (Decimal.digitValue? c).isSome then dropDigits (count + 1) rest else (count, c :: rest)

/-- The exponents that are told apart are those below `2 ^ 31`; one beyond makes any number zero or
too large. -/
def exponentBound : Int := 2147483648

/-- The double with the given significand whose exponent is still to be read, if there is one. -/
def readScaled (negative : Bool) (significand : Nat) (exponent : Int) (cs : List Char) :
    Read Number :=
  let finish (e : Int) (rest : List Char) : Read Number :=
    (scale? 40 (Float.ofNat significand) e).map fun x => (.float (if negative then -x else x), rest)
  match cs with
  | c :: after =>
    if c = 'e' ∨ c = 'E' then
      let (down, body) := Decimal.takeSign after
      match Decimal.takeDigits body with
      | ([], _) => none
      | (ds, rest) =>
        let written : Int := Decimal.ofDigits ds
        if written < exponentBound then
          finish (if down then exponent - written else exponent + written) rest
        -- Zero stays zero however large the exponent is.
        else if significand ≠ 0 ∧ ¬ down then none
        else some (.float (if negative then -0.0 else 0.0), rest)
    else finish exponent cs
  | [] => finish exponent cs

/-- A number from its digits before the point on; the sign has been read. -/
def readUnsigned (negative : Bool) (cs : List Char) : Read Number :=
  let (significand, count, rest) := takeSignificant 0 0 cs
  let (beyond, rest) := dropDigits 0 rest
  let leadingZero := cs.head? = some '0'
  if count = 0 ∨ (leadingZero ∧ 1 < count) then none
  else match rest with
    | '.' :: after =>
      -- The digits after the point go on with the significand.
      let (significand, places, rest) := takeSignificant significand 0 after
      let (more, rest) := dropDigits 0 rest
      if places + more = 0 then none
      else readScaled negative significand ((beyond : Int) - places) rest
    | c :: _ =>
      if c = 'e' ∨ c = 'E' then readScaled negative significand beyond rest
      else whole significand beyond rest
    | [] => whole significand beyond rest
where
  /-- A number that ends with its digits. -/
  whole (significand beyond : Nat) (rest : List Char) : Read Number :=
    if beyond ≠ 0 then readScaled negative significand beyond rest
    else if negative then
      -- Negative zero is a double, and so is what 64 bits with a sign do not hold.
      if significand = 0 ∨ Word.intBound < significand then
        some (.float (-(Float.ofNat significand)), rest)
      else some (.int (-significand), rest)
    else some (.int significand, rest)

/-- A number. -/
def readNumber : List Char → Read Number
  | '-' :: rest => readUnsigned true rest
  | cs => readUnsigned false cs

/-! ## Strings -/

/-- The value of a hexadecimal digit. -/
def hexValue? (c : Char) : Option Nat :=
  if '0' ≤ c ∧ c ≤ '9' then some (c.toNat - 48)
  else if 'a' ≤ c ∧ c ≤ 'f' then some (c.toNat - 87)
  else if 'A' ≤ c ∧ c ≤ 'F' then some (c.toNat - 55)
  else none

/-- Four hexadecimal digits. -/
def readHex4 : List Char → Read Nat
  | a :: b :: c :: d :: rest =>
    match hexValue? a, hexValue? b, hexValue? c, hexValue? d with
    | some a, some b, some c, some d => some (4096 * a + 256 * b + 16 * c + d, rest)
    | _, _, _, _ => none
  | _ => none

/-- Hexadecimal digits of the given number, as a character. -/
def readCode (count : Nat) (cs : List Char) : Read Char :=
  match (cs.take count).mapM hexValue? with
  | none => none
  | some digits =>
    let n := digits.foldl (fun n d => 16 * n + d) 0
    if digits.length = count ∧ n.isValidChar then some (Char.ofNat n, cs.drop count) else none

/-- The rest of a `\u` escape: one code unit, or a surrogate pair. -/
def readUnicode (cs : List Char) : Read Char :=
  match readHex4 cs with
  | none => none
  | some (high, rest) =>
    if high < 0xD800 ∨ 0xE000 ≤ high then some (Char.ofNat high, rest)
    -- The second half of a pair does not stand alone.
    else if 0xDC00 ≤ high then none
    else match rest with
      | '\\' :: 'u' :: rest =>
        match readHex4 rest with
        | some (low, rest) =>
          if 0xDC00 ≤ low ∧ low < 0xE000 then
            some (Char.ofNat (0x10000 + (high - 0xD800) * 0x400 + (low - 0xDC00)), rest)
          else none
        | none => none
      | _ => none

/-- What an escape of one letter stands for. -/
def unescape? (c : Char) : Option Char :=
  match c with
  | '"' => some '"'
  | '\\' => some '\\'
  | '/' => some '/'
  | 'b' => some (Char.ofNat 8)
  | 'f' => some (Char.ofNat 12)
  | 'n' => some '\n'
  | 'r' => some '\r'
  | 't' => some '\t'
  | _ => none

/-- The rest of a string after its opening quote, appended to what has been read of it. -/
def readText : Nat → String → List Char → Read String
  | 0, _, _ => none
  | fuel + 1, out, cs =>
    match cs with
    | '"' :: rest => some (out, rest)
    | '\\' :: 'u' :: rest =>
      match readUnicode rest with
      | some (c, rest) => readText fuel (out.push c) rest
      | none => none
    | '\\' :: c :: rest =>
      match unescape? c with
      | some c => readText fuel (out.push c) rest
      | none => none
    | c :: rest => if c.toNat < 32 ∨ c = '\\' then none else readText fuel (out.push c) rest
    | [] => none

/-! ## Values -/

/-- The given word at the front of a text. -/
def readWord (word : List Char) (v : Json) (cs : List Char) : Read Json :=
  if word.isPrefixOf cs then some (v, cs.drop word.length) else none

mutual

/-- A value at the front of a text in which `depth` more arrays and objects may be opened. -/
def readValue : Nat → Nat → List Char → Read Json
  | 0, _, _ => none
  | fuel + 1, depth, cs =>
    match cs with
    | 'n' :: _ => readWord ['n', 'u', 'l', 'l'] .null cs
    | 't' :: _ => readWord ['t', 'r', 'u', 'e'] (.bool true) cs
    | 'f' :: _ => readWord ['f', 'a', 'l', 's', 'e'] (.bool false) cs
    | '"' :: rest => (readText fuel "" rest).map fun (s, rest) => (.string s, rest)
    | '[' :: rest =>
      if depth = 0 then none
      else match skipBlanks rest with
        | ']' :: rest => some (.array [], rest)
        | rest => readItems fuel (depth - 1) [] rest
    | '\x7b' :: rest =>
      if depth = 0 then none
      else match skipBlanks rest with
        | '\x7d' :: rest => some (.object [], rest)
        | rest => readMembers fuel (depth - 1) [] rest
    | _ => (readNumber cs).map fun (n, rest) => (.number n, rest)

/-- The rest of an array, from an item on; the items before it are given last first. -/
def readItems : Nat → Nat → List Json → List Char → Read Json
  | 0, _, _, _ => none
  | fuel + 1, depth, done, cs =>
    match readValue fuel depth cs with
    | none => none
    | some (v, rest) =>
      match skipBlanks rest with
      | ',' :: rest => readItems fuel depth (v :: done) (skipBlanks rest)
      | ']' :: rest => some (.array (v :: done).reverse, rest)
      | _ => none

/-- The rest of an object, from a key on; the members before it are given last first. -/
def readMembers : Nat → Nat → List (String × Json) → List Char → Read Json
  | 0, _, _, _ => none
  | fuel + 1, depth, done, cs =>
    match cs with
    | '"' :: rest =>
      match readText fuel "" rest with
      | none => none
      | some (key, rest) =>
        match skipBlanks rest with
        | ':' :: rest =>
          match readValue fuel depth (skipBlanks rest) with
          | none => none
          | some (v, rest) =>
            match skipBlanks rest with
            | ',' :: rest => readMembers fuel depth ((key, v) :: done) (skipBlanks rest)
            | '\x7d' :: rest => some (.object ((key, v) :: done).reverse, rest)
            | _ => none
        | _ => none
    | _ => none

end

/-- The one value in a list of characters. -/
def readWhole? (depth : Nat) (cs : List Char) : Option Json :=
  match readValue (2 * cs.length + 2) depth (skipBlanks cs) with
  | some (v, rest) => if (skipBlanks rest).isEmpty then some v else none
  | none => none

/-- The one value in a text, as it is written. -/
def read? (depth : Nat) (text : String) : Option Json :=
  readWhole? depth text.toList

end EsotericHost.Json
