import EsotericHost.Input
import EsotericHost.Json.Basic

/-!
# Events

Everything that the host tells its client is an `Event`. An `Update` describes one change inside a
machine for a client that shows it at work.
-/

namespace EsotericHost

/-- What happens to a stack. -/
inductive StackChange where
  | push
  | pop
  | empty
  deriving Repr, DecidableEq

/-- What happens to an entry of a table. -/
inductive EntryChange where
  | set
  | delete
  deriving Repr, DecidableEq

/-- One change inside a machine, as the client sees it. -/
inductive Update where
  | instructionPointer (value : Nat)
  | dataPointer (value : Nat)
  | data (index : Nat) (value : Int)
  | allData (values : Array Int)
  | stack (name : Option String) (change : StackChange) (value : Option Json)
  | entry (table key : String) (change : EntryChange) (value : Json)

/-- A message from the host to its client. -/
inductive Event where
  /-- The innermost activity is now this one. -/
  | status (label : String)
  /-- A machine for the language was made. -/
  | created (lang : String) (visualize : Bool) (initialMemory : Option (Array Int))
  | update (u : Update)
  /-- The program waits for input. -/
  | request (kind : InputKind)
  | print (text : String)
  | minified (code : String)
  | fromText (lang code : String)
  | error (message : String)

/-- The events of one command, in the order in which they arose. -/
abbrev Transcript := Array Event

/-- The text printed in the course of a transcript. -/
def Transcript.printed (t : Transcript) : String :=
  t.foldl (fun out e => match e with | .print text => out ++ text | _ => out) ""

end EsotericHost
