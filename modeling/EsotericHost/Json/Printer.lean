import EsotericHost.Decimal.Layout
import EsotericHost.Json.Basic

/-!
# Writing JSON

`Json.compact` writes a value on one line without blanks. A string escapes the quote, the
backslash and the control characters and nothing else. A double has at least one digit after the
point unless it needs an exponent, which it does from `10 ^ 16` upwards and below `10 ^ -5`.
-/

namespace EsotericHost.Json

/-- Doubles are positional while the first digit stands for a power of ten from -5 to 15, and a
whole number keeps a zero after the point. -/
def floatLayout : Decimal.Layout :=
  ⟨fun k => -5 ≤ k ∧ k < 16, true⟩

/-- The text of a number. -/
def Number.text : Number → String
  | .int n => toString n
  | .float x => floatLayout.write x

/-- The lower-case hexadecimal digit of a number below sixteen. -/
def hexDigit (n : Nat) : Char :=
  if n < 10 then Char.ofNat (48 + n) else Char.ofNat (87 + n)

/-- A character as it stands inside a string. -/
def escape (c : Char) : List Char :=
  if c = '"' then ['\\', '"']
  else if c = '\\' then ['\\', '\\']
  else if c = '\n' then ['\\', 'n']
  else if c = '\r' then ['\\', 'r']
  else if c = '\t' then ['\\', 't']
  else if c.toNat = 8 then ['\\', 'b']
  else if c.toNat = 12 then ['\\', 'f']
  else if c.toNat < 32 then ['\\', 'u', '0', '0', hexDigit (c.toNat / 16), hexDigit (c.toNat % 16)]
  else [c]

/-- A string between quotes. -/
def quote (s : String) : String :=
  s.foldl (fun out c => (escape c).foldl String.push out) "\"" |>.push '"'

mutual

/-- Appends the compact text of a value. -/
def write (out : String) : Json → String
  | .null => out ++ "null"
  | .bool true => out ++ "true"
  | .bool false => out ++ "false"
  | .number n => out ++ n.text
  | .string s => out ++ quote s
  | .array items => (writeItems (out.push '[') items).push ']'
  | .object members => (writeMembers (out.push '\x7b') members).push '\x7d'

/-- Appends the items, with commas between them. -/
def writeItems (out : String) : List Json → String
  | [] => out
  | [v] => write out v
  | v :: rest => writeItems ((write out v).push ',') rest

/-- Appends the members, with commas between them. -/
def writeMembers (out : String) : List (String × Json) → String
  | [] => out
  | [(k, v)] => write ((out ++ quote k).push ':') v
  | (k, v) :: rest => writeMembers ((write ((out ++ quote k).push ':') v).push ',') rest

end

/-- The value on one line, without blanks. -/
def compact (v : Json) : String :=
  write "" v

end EsotericHost.Json
