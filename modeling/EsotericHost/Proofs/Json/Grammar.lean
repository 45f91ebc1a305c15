import EsotericHost.Json.Printer
import EsotericHost.Json.Reader

/-!
# The texts of JSON values

`Json.Spells v cs` says that `cs` is a text of the value `v`, with blanks between the tokens as they
come. Members are spelled in the order in which the value lists them, repeated keys included, so
that a text belongs to one value only, while a value has many texts: its blanks, the escapes in its
strings and the digits of its doubles are free.
-/

namespace EsotericHost.Json

/-- The characters that may stand between two tokens. -/
def IsBlank (c : Char) : Prop :=
  c = ' ' ∨ c = '\n' ∨ c = '\t' ∨ c = '\r'

instance (c : Char) : Decidable (IsBlank c) :=
  inferInstanceAs (Decidable (_ ∨ _))

/-- What may stand between two tokens. -/
def Blank (ws : List Char) : Prop :=
  ∀ c ∈ ws, IsBlank c

/-! ## Strings -/

/-- Four hexadecimal digits and the number that they make. -/
inductive Hex4 : Nat → List Char → Prop
  | digits {a b c d : Char} {i j k l : Nat} (ha : hexValue? a = some i) (hb : hexValue? b = some j)
      (hc : hexValue? c = some k) (hd : hexValue? d = some l) :
      Hex4 (4096 * i + 256 * j + 16 * k + l) [a, b, c, d]

/-- The ways to write a character inside a string. -/
inductive Letter : Char → List Char → Prop
  | plain {c : Char} (hc : 32 ≤ c.toNat) (hquote : c ≠ '"') (hescape : c ≠ '\\') : Letter c [c]
  | short {c e : Char} (h : unescape? e = some c) : Letter c ['\\', e]
  | unit {c : Char} {cs : List Char} (h : Hex4 c.toNat cs) : Letter c ('\\' :: 'u' :: cs)
  /-- Beyond the first `2 ^ 16` characters, as two surrogates. -/
  | pair {c : Char} {high low : Nat} {hs ls : List Char} (hh : Hex4 high hs) (hl : Hex4 low ls)
      (hhigh : 0xD800 ≤ high ∧ high < 0xDC00) (hlow : 0xDC00 ≤ low ∧ low < 0xE000)
      (hc : c.toNat = 0x10000 + (high - 0xD800) * 0x400 + (low - 0xDC00)) :
      Letter c ('\\' :: 'u' :: hs ++ '\\' :: 'u' :: ls)

/-- The ways to write the characters of a string, with the quote after them. -/
inductive Letters : List Char → List Char → Prop
  | nil : Letters [] ['"']
  | cons {c : Char} {s cs ds : List Char} (h : Letter c cs) (hs : Letters s ds) :
      Letters (c :: s) (cs ++ ds)

/-! ## Values -/

mutual

/-- How many arrays and objects are open at once where the value is nested deepest. -/
def depth : Json → Nat
  | .null | .bool _ | .number _ | .string _ => 0
  | .array items => itemsDepth items + 1
  | .object members => membersDepth members + 1

/-- The depth of the deepest item. -/
def itemsDepth : List Json → Nat
  | [] => 0
  | v :: rest => max v.depth (itemsDepth rest)

/-- The depth of the deepest member. -/
def membersDepth : List (String × Json) → Nat
  | [] => 0
  | (_, v) :: rest => max v.depth (membersDepth rest)

end

mutual

/-- The texts of a value, from its first character to its last. -/
inductive Spells : Json → List Char → Prop
  | null : Spells .null ['n', 'u', 'l', 'l']
  | true : Spells (.bool true) ['t', 'r', 'u', 'e']
  | false : Spells (.bool false) ['f', 'a', 'l', 's', 'e']
  | int {n : Int} (h : Number.fits n) : Spells (.number (.int n)) (toString n).toList
  /-- What a double is written as is up to the reader of numbers. -/
  | float {x : Float} {cs : List Char} (h : readNumber cs = some (.float x, [])) :
      Spells (.number (.float x)) cs
  | string {s : String} {cs : List Char} (h : Letters s.toList cs) : Spells (.string s) ('"' :: cs)
  | array {items : List Json} {ws cs : List Char} (hws : Blank ws) (h : SpellsItems items cs) :
      Spells (.array items) ('[' :: ws ++ cs)
  | object {members : List (String × Json)} {ws cs : List Char} (hws : Blank ws)
      (h : SpellsMembers members cs) : Spells (.object members) ('\x7b' :: ws ++ cs)

/-- The texts of the items of an array, with the bracket after them. -/
inductive SpellsItems : List Json → List Char → Prop
  | nil : SpellsItems [] [']']
  | last {v : Json} {cs ws : List Char} (h : Spells v cs) (hws : Blank ws) :
      SpellsItems [v] (cs ++ (ws ++ [']']))
  | cons {v w : Json} {items : List Json} {cs ws xs ds : List Char} (h : Spells v cs)
      (hws : Blank ws) (hxs : Blank xs) (hitems : SpellsItems (w :: items) ds) :
      SpellsItems (v :: w :: items) (cs ++ (ws ++ ',' :: (xs ++ ds)))

/-- The texts of the members of an object, with the brace after them. -/
inductive SpellsMembers : List (String × Json) → List Char → Prop
  | nil : SpellsMembers [] ['\x7d']
  | last {m : String × Json} {cs ws : List Char} (h : SpellsMember m cs) (hws : Blank ws) :
      SpellsMembers [m] (cs ++ (ws ++ ['\x7d']))
  | cons {m n : String × Json} {members : List (String × Json)} {cs ws xs ds : List Char}
      (h : SpellsMember m cs) (hws : Blank ws) (hxs : Blank xs)
      (hmembers : SpellsMembers (n :: members) ds) :
      SpellsMembers (m :: n :: members) (cs ++ (ws ++ ',' :: (xs ++ ds)))

/-- The texts of a key and its value. -/
inductive SpellsMember : String × Json → List Char → Prop
  | mk {k : String} {v : Json} {ks ws xs cs : List Char} (hk : Letters k.toList ks)
      (hws : Blank ws) (hxs : Blank xs) (h : Spells v cs) :
      SpellsMember (k, v) ('"' :: (ks ++ (ws ++ ':' :: (xs ++ cs))))

end

/-- The texts of a value with blanks around it. -/
inductive IsText (v : Json) : String → Prop
  | mk {ws cs xs : List Char} (hws : Blank ws) (h : Spells v cs) (hxs : Blank xs) :
      IsText v (String.ofList (ws ++ (cs ++ xs)))

end EsotericHost.Json
