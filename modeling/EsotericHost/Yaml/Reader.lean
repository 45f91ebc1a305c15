import EsotericHost.Yaml.Lexer
import EsotericHost.Yaml.Node

/-!
# Reading YAML

The tokens of a text make up documents, each with the directives in front of it and one value. An
alias stands for the value that its anchor has been set at; inside of that value itself it has none.
-/

namespace EsotericHost.Yaml

/-- What has been read of a document, and the tokens that follow: the starts of names that handles
stand for, the anchors with their numbers, last one first, and the values of the numbers. -/
structure Reader where
  tokens : List Token
  handles : List (String × String)
  anchors : List (String × Nat)
  values : List (Nat × Node)

namespace Reader

/-- The reader before other tokens. -/
def goTo (tokens : List Token) (r : Reader) : Reader := { r with tokens }

/-! ## Anchors and tags -/

/-- A new anchor, with its number. -/
def addAnchor (name : String) (r : Reader) : Nat × Reader :=
  let number := r.anchors.length
  (number, { r with anchors := (name, number) :: r.anchors })

/-- Gives the anchor of a value its value, if there is one. -/
def setAnchor (number? : Option Nat) (v : Node) (r : Reader) : Reader :=
  match number? with
  | some number => { r with values := (number, v) :: r.values }
  | none => r

/-- The value of an alias. -/
def ofAlias? (name : String) (r : Reader) : Option Node :=
  (r.anchors.lookup name).map fun number => (r.values.lookup number).getD .bad

/-- The tag with what its handle stands for. A handle with a mark at either end stands for nothing
unless a directive says so, apart from the one of the tags of YAML itself. -/
def resolve? (t : Tag) (r : Reader) : Option Tag :=
  match r.handles.lookup t.handle with
  | some start => some ⟨start, t.suffix⟩
  | none =>
    if t.handle = "!!" then some ⟨Node.coreStart, t.suffix⟩
    else if isFullHandle t.handle then none
    else some t

/-- The properties in front of a value. -/
structure Properties where
  anchor : Option Nat
  tag : Option Tag

/-- Whether there are no properties. -/
def Properties.isEmpty (p : Properties) : Bool := p.anchor.isNone && p.tag.isNone

/-- Reads the properties in front of a value: an anchor, a tag, or both in either order. -/
def readProperties (r : Reader) : Option (Properties × Reader) := do
  match r.tokens with
  | .anchor name :: .tag t :: rest =>
    let (number, r) := r.addAnchor name
    let t ← r.resolve? t
    some (⟨some number, some t⟩, r.goTo rest)
  | .tag t :: .anchor name :: rest =>
    let t ← r.resolve? t
    let (number, r) := r.addAnchor name
    some (⟨some number, some t⟩, r.goTo rest)
  | .anchor name :: rest =>
    let (number, r) := r.addAnchor name
    some (⟨some number, none⟩, r.goTo rest)
  | .tag t :: rest =>
    let t ← r.resolve? t
    some (⟨none, some t⟩, r.goTo rest)
  | _ => some (⟨none, none⟩, r)

/-! ## Values -/

/-- Where a value stands: whether it may be a block, and whether it may be a row of entries in the
column of the key that it belongs to. -/
inductive Position where
  | inFlow
  | inBlock
  | afterKey
  deriving Repr, DecidableEq

/-- A value with properties of which there is no more than those. -/
def readNothing (props : Properties) (r : Reader) : Option (Node × Reader) :=
  if props.isEmpty then none else some (.ofText true props.tag "", r)

mutual

/-- Reads a value. The bound goes down with every value, item and member. -/
def readNode : Nat → Position → Reader → Option (Node × Reader)
  | 0, _, _ => none
  | fuel + 1, p, r =>
    match r.tokens with
    | .alias name :: rest => (r.ofAlias? name).map (·, r.goTo rest)
    | _ =>
      match r.readProperties with
      | none => none
      | some (props, r) =>
        -- The anchor is known while its value is read, but has no value yet.
        (readContent fuel p props r).map fun (v, r) => (v, r.setAnchor props.anchor v)

/-- Reads a value after its properties. -/
def readContent : Nat → Position → Properties → Reader → Option (Node × Reader)
  | 0, _, _, _ => none
  | fuel + 1, p, props, r =>
    match r.tokens with
    | .text isPlain s :: rest => some (.ofText isPlain props.tag s, r.goTo rest)
    | .listStart :: rest => readItems fuel true [] (r.goTo rest)
    | .mapStart :: rest => readMembers fuel true [] (r.goTo rest)
    | .entry :: _ => if p = .afterKey then readRow fuel [] r else readNothing props r
    | .entriesStart :: rest =>
      if p = .inFlow then readNothing props r else readEntries fuel [] (r.goTo rest)
    | .membersStart :: rest =>
      if p = .inFlow then readNothing props r else readBlockMembers fuel [] (r.goTo rest)
    | _ => readNothing props r

/-- Reads a value unless one of the given tokens shows that there is none. -/
def readOptional : Nat → List Token → Position → Reader → Option (Node × Reader)
  | 0, _, _, _ => none
  | fuel + 1, ends, p, r =>
    if r.tokens.head?.any (· ∈ ends) then some (.null, r) else readNode fuel p r

/-- Reads the entries of a block to its end. The entries so far are given last first. -/
def readEntries : Nat → List Node → Reader → Option (Node × Reader)
  | 0, _, _ => none
  | fuel + 1, done, r =>
    match r.tokens with
    | .blockEnd :: rest => some (.list done.reverse, r.goTo rest)
    | .entry :: rest =>
      match readOptional fuel [.entry, .blockEnd] .inBlock (r.goTo rest) with
      | some (v, r) => readEntries fuel (v :: done) r
      | none => none
    | _ => none

/-- Reads entries in the column of the key that they belong to. -/
def readRow : Nat → List Node → Reader → Option (Node × Reader)
  | 0, _, _ => none
  | fuel + 1, done, r =>
    match r.tokens with
    | .entry :: rest =>
      match readOptional fuel [.entry, .key, .value, .blockEnd] .inBlock (r.goTo rest) with
      | some (v, r) => readRow fuel (v :: done) r
      | none => none
    | _ => some (.list done.reverse, r)

/-- Reads the members of a block to its end. The keys and values so far are given last first. -/
def readBlockMembers : Nat → List Node → Reader → Option (Node × Reader)
  | 0, _, _ => none
  | fuel + 1, done, r =>
    match r.tokens with
    | .blockEnd :: rest => (Node.mapOf? done.reverse).map (·, r.goTo rest)
    | .key :: rest =>
      match readOptional fuel [.key, .value, .blockEnd] .afterKey (r.goTo rest) with
      | some (key, r) => readBlockValue fuel (key :: done) r
      | none => none
    -- A colon without a key has `null` for one.
    | .value :: _ => readBlockValue fuel (.null :: done) r
    | _ => none

/-- Reads the value of a key in a block, and the members after it. -/
def readBlockValue : Nat → List Node → Reader → Option (Node × Reader)
  | 0, _, _ => none
  | fuel + 1, done, r =>
    match r.tokens with
    | .value :: rest =>
      match readOptional fuel [.key, .value, .blockEnd] .afterKey (r.goTo rest) with
      | some (v, r) => readBlockMembers fuel (v :: done) r
      | none => none
    | _ => readBlockMembers fuel (.null :: done) r

/-- Reads items up to the closing bracket. The items so far are given last first, and `first` says
that no comma has to come before the next one. -/
def readItems : Nat → Bool → List Node → Reader → Option (Node × Reader)
  | 0, _, _, _ => none
  | fuel + 1, first, done, r =>
    match first, r.tokens with
    | _, .listEnd :: rest => some (.list done.reverse, r.goTo rest)
    | false, .comma :: rest => readItems fuel true done (r.goTo rest)
    | false, _ => none
    | true, .key :: rest =>
      match readPair fuel (r.goTo rest) with
      | some (v, r) => readItems fuel false (v :: done) r
      | none => none
    | true, _ =>
      match readNode fuel .inFlow r with
      | some (v, r) => readItems fuel false (v :: done) r
      | none => none

/-- Reads an item that is a map of one pair, after the sign of its key. The mark that shows that
there is no key is passed over. -/
def readPair : Nat → Reader → Option (Node × Reader)
  | 0, _ => none
  | fuel + 1, r =>
    let key? : Option (Node × Reader) := match r.tokens with
      | .value :: rest | .comma :: rest | .listEnd :: rest => some (.null, r.goTo rest)
      | _ => readNode fuel .inFlow r
    match key? with
    | none => none
    | some (key, r) =>
      match r.tokens with
      | .value :: rest =>
        match readOptional fuel [.comma, .listEnd] .inFlow (r.goTo rest) with
        | some (v, r) => (Node.mapOf? [key, v]).map (·, r)
        | none => none
      | _ => (Node.mapOf? [key, .null]).map (·, r)

/-- Reads members up to the closing brace. The keys and values so far are given last first, and
`first` says that no comma has to come before the next member. -/
def readMembers : Nat → Bool → List Node → Reader → Option (Node × Reader)
  | 0, _, _, _ => none
  | fuel + 1, first, done, r =>
    match first, r.tokens with
    | _, .mapEnd :: rest => (Node.mapOf? done.reverse).map (·, r.goTo rest)
    | false, .comma :: rest => readMembers fuel true done (r.goTo rest)
    | false, _ => none
    | true, .key :: rest =>
      match readOptional fuel [.value, .comma, .mapEnd] .inFlow (r.goTo rest) with
      | some (key, r) => readFlowValue fuel (key :: done) r
      | none => none
    | true, .value :: _ => readFlowValue fuel (.null :: done) r
    | true, _ =>
      match readNode fuel .inFlow r with
      | some (key, r) => readMembers fuel false (.null :: key :: done) r
      | none => none

/-- Reads the value of a key between braces, and the members after it. -/
def readFlowValue : Nat → List Node → Reader → Option (Node × Reader)
  | 0, _, _ => none
  | fuel + 1, done, r =>
    match r.tokens with
    | .value :: rest =>
      match readOptional fuel [.comma, .mapEnd] .inFlow (r.goTo rest) with
      | some (v, r) => readMembers fuel false (v :: done) r
      | none => none
    | _ => readMembers fuel false (.null :: done) r

end

/-! ## Documents -/

/-- Reads the directives in front of a document. There is at most one for the version, and of those
for handles only one after which there is no other directive counts. -/
def readDirectives (versionSeen : Bool) (handles : List (String × String)) :
    List Token → Option (List (String × String) × List Token)
  | .directive .version :: rest => if versionSeen then none else readDirectives true [] rest
  | .directive (.tag handle start) :: rest => readDirectives versionSeen [(handle, start)] rest
  | tokens => some (handles, tokens)

/-- Reads the value of a document. -/
def readValue (handles : List (String × String)) (tokens : List Token) :
    Option (Node × List Token) :=
  (readNode (6 * tokens.length + 6) .inBlock ⟨tokens, handles, [], []⟩).map
    fun (v, r) => (v, r.tokens)

/-- Whether there is nothing more in a document after the mark of its start. -/
def isEmptyDocument : List Token → Bool
  | [] | .directive _ :: _ | .documentStart :: _ | .documentEnd :: _ => true
  | _ => false

/-- Reads a document. If there are directives, the mark of its start has to follow. -/
def readDocument (tokens : List Token) : Option (Node × List Token) :=
  match readDirectives false [] tokens with
  | none => none
  | some (handles, .documentStart :: rest) =>
    if isEmptyDocument rest then some (.null, rest) else readValue handles rest
  | some (handles, rest) =>
    if rest.length = tokens.length then readValue handles rest else none

end Reader

/-- The value of the only document in a text; there may be none. -/
def read? (text : String) : Option (Option Node) :=
  let skipEnds (tokens : List Token) := tokens.dropWhile (· = .documentEnd)
  match (tokens? text.toList).map skipEnds with
  | none => none
  | some [] => some none
  | some tokens =>
    match Reader.readDocument tokens with
    | some (v, rest) => if (skipEnds rest).isEmpty then some (some v) else none
    | none => none

end EsotericHost.Yaml
