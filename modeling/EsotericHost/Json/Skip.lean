import EsotericHost.Json.Reader

/-!
# Passing over JSON values

A reader that wants only some members of an object passes over the values of the others. Such a
value has to be written by the rules of JSON, but nothing is made of it: its numbers may be of any
size, its escapes may stand for half of a surrogate pair, and it may be nested to any depth.
`readKnown?` reads an object in this way.
-/

namespace EsotericHost.Json

open Text (Read)

/-- A text from which something has been taken off the front, or nothing if it does not start with
what is wanted. -/
abbrev Skip := Option (List Char)

/-- Passes over digits, of which there has to be one. -/
def skipDigits (cs : List Char) : Skip :=
  match Decimal.takeDigits cs with
  | ([], _) => none
  | (_, rest) => some rest

/-- Passes over the exponent of a number, if there is one. -/
def skipExponent (cs : List Char) : Skip :=
  match cs with
  | c :: rest =>
    if c = 'e' ∨ c = 'E' then skipDigits (Decimal.takeSign rest).2 else some cs
  | [] => some []

/-- Passes over a number. -/
def skipNumber (cs : List Char) : Skip :=
  let body := match cs with
    | '-' :: rest => rest
    | cs => cs
  let whole : Skip := match body with
    | '0' :: rest => if (rest.head?.bind Decimal.digitValue?).isSome then none else some rest
    | cs => skipDigits cs
  match whole with
  | some ('.' :: rest) => (skipDigits rest).bind skipExponent
  | some rest => skipExponent rest
  | none => none

/-- Passes over the rest of a string after its opening quote. -/
def skipText : Nat → List Char → Skip
  | 0, _ => none
  | fuel + 1, cs =>
    match cs with
    | '"' :: rest => some rest
    | '\\' :: 'u' :: rest => (readHex4 rest).bind fun (_, rest) => skipText fuel rest
    | '\\' :: c :: rest => if (unescape? c).isSome then skipText fuel rest else none
    | c :: rest => if c.toNat < 32 ∨ c = '\\' then none else skipText fuel rest
    | [] => none

/-- Passes over the given word. -/
def skipWord (word cs : List Char) : Skip :=
  if word.isPrefixOf cs then some (cs.drop word.length) else none

mutual

/-- Passes over a value. Twice the length of the text is a bound large enough. -/
def skipValue : Nat → List Char → Skip
  | 0, _ => none
  | fuel + 1, cs =>
    match cs with
    | 'n' :: _ => skipWord ['n', 'u', 'l', 'l'] cs
    | 't' :: _ => skipWord ['t', 'r', 'u', 'e'] cs
    | 'f' :: _ => skipWord ['f', 'a', 'l', 's', 'e'] cs
    | '"' :: rest => skipText fuel rest
    | '[' :: rest =>
      match skipBlanks rest with
      | ']' :: rest => some rest
      | rest => skipItems fuel rest
    | '\x7b' :: rest =>
      match skipBlanks rest with
      | '\x7d' :: rest => some rest
      | rest => skipMembers fuel rest
    | _ => skipNumber cs

/-- Passes over the rest of an array, from an item on. -/
def skipItems : Nat → List Char → Skip
  | 0, _ => none
  | fuel + 1, cs =>
    match (skipValue fuel cs).map skipBlanks with
    | some (',' :: rest) => skipItems fuel (skipBlanks rest)
    | some (']' :: rest) => some rest
    | _ => none

/-- Passes over the rest of an object, from a key on. -/
def skipMembers : Nat → List Char → Skip
  | 0, _ => none
  | fuel + 1, cs =>
    match cs with
    | '"' :: rest =>
      match (skipText fuel rest).map skipBlanks with
      | some (':' :: rest) =>
        match (skipValue fuel (skipBlanks rest)).map skipBlanks with
        | some (',' :: rest) => skipMembers fuel (skipBlanks rest)
        | some ('\x7d' :: rest) => some rest
        | _ => none
      | _ => none
    | _ => none

end

/-- The value of a member, if its key is one of the known ones; any other value is passed over. -/
def readKnownValue (known : List String) (key : String) (cs : List Char) :
    Read (List (String × Json)) :=
  let bound := 2 * cs.length + 2
  if key ∈ known then
    (readValue bound maxDepth cs).map fun (v, rest) => ([(key, v)], rest)
  else (skipValue bound cs).map fun rest => ([], rest)

/-- The known members of the rest of an object, from a key on; those before it are given last
first. -/
def readKnownMembers (known : List String) :
    Nat → List (String × Json) → List Char → Read (List (String × Json))
  | 0, _, _ => none
  | fuel + 1, done, cs =>
    match cs with
    | '"' :: rest =>
      match readText cs.length "" rest with
      | none => none
      | some (key, rest) =>
        match skipBlanks rest with
        | ':' :: rest =>
          match readKnownValue known key (skipBlanks rest) with
          | none => none
          | some (member, rest) =>
            match skipBlanks rest with
            | ',' :: rest => readKnownMembers known fuel (member ++ done) (skipBlanks rest)
            | '\x7d' :: rest => some ((member ++ done).reverse, rest)
            | _ => none
        | _ => none
    | _ => none

/-- The one value in a text. If it is an object, it is given without the members whose keys are not
known. -/
def readKnown? (known : List String) (text : String) : Option Json :=
  match skipBlanks text.toList with
  | '\x7b' :: rest =>
    let members : Read (List (String × Json)) := match skipBlanks rest with
      | '\x7d' :: rest => some ([], rest)
      | rest => readKnownMembers known (rest.length + 1) [] rest
    match members with
    | some (members, rest) => if (skipBlanks rest).isEmpty then some (.object members) else none
    | none => none
  | _ => read? maxDepth text

end EsotericHost.Json
