import EsotericHost.Decimal.Literal
import EsotericHost.Yaml.Token

/-!
# YAML values

What a document stands for. A plain text may stand for something else than itself, which a tag may
say; a text that is not what its tag says has no value, and is `bad`. Maps have keys of any kind, no
two of which are the same.
-/

namespace EsotericHost.Yaml

/-- A value. A double is kept as it is written. -/
inductive Node where
  | bad
  | null
  | bool (b : Bool)
  | int (n : Int)
  | real (text : String)
  | string (s : String)
  | list (items : List Node)
  | map (members : List (Node × Node))

namespace Node

instance : Inhabited Node := ⟨bad⟩

/-! ## Sameness -/

mutual

/-- Whether two values are the same. Doubles are when they are written alike. -/
def same : Node → Node → Bool
  | bad, bad => true
  | null, null => true
  | bool a, bool b => a = b
  | int m, int n => m = n
  | real s, real t => s = t
  | string s, string t => s = t
  | list xs, list ys => sameItems xs ys
  | map xs, map ys => sameMembers xs ys
  | _, _ => false

/-- Whether two lists have the same items. -/
def sameItems : List Node → List Node → Bool
  | [], [] => true
  | x :: xs, y :: ys => same x y && sameItems xs ys
  | _, _ => false

/-- Whether two maps have the same members in the same order. -/
def sameMembers : List (Node × Node) → List (Node × Node) → Bool
  | [], [] => true
  | (k, v) :: xs, (l, w) :: ys => same k l && same v w && sameMembers xs ys
  | _, _ => false

end

/-- Whether there is no value. -/
def isBad : Node → Bool
  | bad => true
  | _ => false

/-- The members whose keys and values are given in turn, after those that are given last first and
after a key. A bad key is passed over, and what comes next takes its place. -/
def pairUp? (done : List (Node × Node)) (key : Node) : List Node → Option (List (Node × Node))
  | [] => some done.reverse
  | v :: rest =>
    if key.isBad then pairUp? done v rest
    else if done.any fun (k, _) => key.same k then none
    else pairUp? ((key, v) :: done) bad rest

/-- The map whose keys and values are given in turn. What is left over at the end does not count. -/
def mapOf? (children : List Node) : Option Node := (pairUp? [] bad children).map map

/-! ## Plain texts -/

/-- An integer of 64 bits in the given base, with or without a sign. -/
def intInBase? (base : Nat) (cs : List Char) : Option Int :=
  let (negative, digits) := Decimal.takeSign cs
  match digits.mapM fun c => (Json.hexValue? c).filter (· < base) with
  | none | some [] => none
  | some ds =>
    let n : Int := (ds.foldl (fun n d => base * n + d) 0 : Nat)
    (some (if negative then -n else n)).filter Word.holdsInt

/-- The words for doubles that are not finite. -/
def isEndless (word : String) : Bool :=
  word ∈ [".inf", ".Inf", ".INF", "+.inf", "+.Inf", "+.INF", "-.inf", "-.Inf", "-.INF", ".nan",
    ".NaN", ".NAN"]

/-- Whether a text is a double. Of the words only those with a point are. -/
def isReal (s : String) : Bool :=
  isEndless s || (s.any Char.isDigit && (Decimal.readFloat? s.toList).isSome)

/-- The truth value that a word stands for. -/
def bool? (s : String) : Option Bool :=
  if s ∈ ["true", "True", "TRUE"] then some true
  else if s ∈ ["false", "False", "FALSE"] then some false
  else none

/-- The integer that a word stands for if it has the mark of a base or a plus in front. -/
def markedInt? : List Char → Option Int
  | '0' :: 'x' :: digits => intInBase? 16 digits
  | '0' :: 'o' :: digits => intInBase? 8 digits
  | '+' :: digits => Decimal.readInt64? digits
  | _ => none

/-- What a plain text without a tag stands for. -/
def ofWord (s : String) : Node :=
  -- A mark with digits that do not fit leaves the text to the next reading.
  match (markedInt? s.toList).or (Decimal.readInt64? s.toList) with
  | some n => int n
  | none =>
    if s ∈ ["", "~", "null", "Null", "NULL"] then null
    else match bool? s with
      | some b => bool b
      | none => if isReal s then real s else string s

/-- What a plain text stands for by a tag of YAML itself. -/
def ofCoreTag (name s : String) : Node :=
  if name = "bool" then ((bool? s).map bool).getD bad
  else if name = "int" then ((Decimal.readInt64? s.toList).map int).getD bad
  else if name = "float" then if isReal s then real s else bad
  else if name = "null" then if s = "~" ∨ s = "null" then null else bad
  else string s

/-- The start of the names of the tags of YAML itself. -/
def coreStart : String := "tag:yaml.org,2002:"

/-- What a text stands for. A tag counts only if the text is plain; it is given with what its handle
stands for. -/
def ofText (isPlain : Bool) (tag? : Option Tag) (s : String) : Node :=
  if !isPlain then string s
  else match tag? with
    | none => ofWord s
    | some t => if t.handle = coreStart then ofCoreTag t.suffix s else string s

end Node

end EsotericHost.Yaml
