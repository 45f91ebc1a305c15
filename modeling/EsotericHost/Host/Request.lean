import EsotericHost.Host.Error
import EsotericHost.Input
import EsotericHost.Json.Printer

/-!
# Requests for input

The host has at most one request outstanding. The client may answer it with any JSON value;
`answer` turns the value into an input of the kind that was asked for, or refuses it and leaves the
request open.
-/

namespace EsotericHost.Request

/-- A byte is an integer of 64 bits, the first character of a string, or zero for an empty string
and for `null`. -/
def byte : Json → Except HostError Int64
  | .number n =>
    match n.toInt64? with
    | some n => .ok (.ofInt n)
    | none => .error (.badInput s!"expected an integer byte, got {n.text}")
  | .string s => .ok (.ofInt ((s.toList.head?.map fun c => (c.toNat : Int)).getD 0))
  | .null => .ok 0
  | other => .error (.badInput s!"expected a byte or character, got {other.compact}")

/-- A line is a string, or the text of a number or a truth value, or empty for `null`. -/
def line : Json → Except HostError String
  | .string s => .ok s
  | .number n => .ok n.text
  | .bool b => .ok (if b then "true" else "false")
  | .null => .ok ""
  | other => .error (.badInput s!"expected a line of text, got {other.compact}")

/-- The input of the given kind that a value stands for. -/
def answer (kind : InputKind) (value : Json) : Except HostError Input :=
  match kind with
  | .byte => (byte value).map .byte
  | .line => (line value).map .line

/-- The error of a request that is made while another is open; open requests are not told apart. -/
def conflict (kind : InputKind) : HostError :=
  .internal s!"input request {kind.name} opened while <id> is still outstanding"

/-- Opens a request, unless one is open. -/
def ask (outstanding : Option InputKind) (kind : InputKind) : Except HostError InputKind :=
  match outstanding with
  | none => .ok kind
  | some _ => .error (conflict kind)

/-- The kind of the open request and the input that answers it. -/
def resolve (outstanding : Option InputKind) (value : Json) :
    Except HostError (InputKind × Input) :=
  match outstanding with
  | none => .error .nothingAsked
  | some kind => (answer kind value).map (kind, ·)

end EsotericHost.Request
