/-!
# Input for a machine

A machine that needs input suspends and says which kind it waits for: one byte or one line of
text. An `Input` is what it is resumed with.
-/

namespace EsotericHost

/-- The kinds of input that a machine can wait for. -/
inductive InputKind where
  | byte
  | line
  deriving Repr, DecidableEq, Inhabited

/-- The answer to a request. -/
inductive Input where
  | byte (value : Int64)
  | line (text : String)
  deriving Repr, DecidableEq

namespace InputKind

/-- The name of the kind. -/
def name : InputKind → String
  | byte => "byte"
  | line => "line"

/-- The activity that the host reports while it waits. -/
def label : InputKind → String
  | byte => "Requesting GETCH"
  | line => "Requesting Input"

end InputKind

/-- The kind of request that an input answers. -/
def Input.kind : Input → InputKind
  | .byte _ => .byte
  | .line _ => .line

end EsotericHost
