import EsotericHost.Host.Message
import EsotericHost.Text.Blank
import EsotericHost.Text.Lines

/-!
# Streams of commands

The same host can be fed from a queue of commands or from a stream of bytes that holds one command
a line. Blank lines are passed over. A line that is no text ends the stream with a failure; what
the lines before it gave has been written by then.
-/

namespace EsotericHost.Host

variable {σ : Type}

/-- The line feed, which ends a line. -/
def lineFeed : UInt8 := 10

/-- The carriage return, which may stand before it. -/
def carriageReturn : UInt8 := 13

/-- The lines of a stream, without their endings. -/
def streamLines (bytes : List UInt8) : List (List UInt8) :=
  (Text.lines lineFeed bytes).map (Text.dropReturn carriageReturn)

/-- The text of a line, if its bytes are one. -/
def lineText? (line : List UInt8) : Option String :=
  String.fromUTF8? (ByteArray.mk line.toArray)

/-- How the reading of a stream ended. -/
inductive StreamEnd where
  | finished
  | unreadable
  deriving Repr, DecidableEq

/-- The events of the text of a line, and the host after it. -/
def serveText (c : Catalogue σ) (bound : Nat) (text : String) (h : Host σ) :
    Option (List Event × Host σ) :=
  if Text.isBlankLine text then some ([], h) else h.handleMessage c bound text

/-- The events of the lines of a stream, and how the stream ended. -/
def serveLines (c : Catalogue σ) (bound : Nat) : List (List UInt8) → Host σ →
    Option (List Event × StreamEnd)
  | [], _ => some ([], .finished)
  | line :: rest, h =>
    match lineText? line with
    | none => some ([], .unreadable)
    | some text =>
      match h.serveText c bound text with
      | none => none
      | some (events, h) =>
        (serveLines c bound rest h).map fun (more, ending) => (events ++ more, ending)

/-- The events of a stream of bytes, and how the stream ended. -/
def serve (c : Catalogue σ) (bound : Nat) (bytes : List UInt8) (h : Host σ) :
    Option (List Event × StreamEnd) :=
  h.serveLines c bound (streamLines bytes)

/-- The failure of a stream with a line that is no text. -/
def unreadableMessage : String := "Failed to read command"

/-- The events of a queue of commands that is closed after the last one, while the receiver of the
events stays. -/
def serveQueue (c : Catalogue σ) (bound : Nat) : List Command → Host σ → Option (List Event)
  | [], _ => some []
  | command :: rest, h =>
    match h.handle c bound command with
    | none => none
    | some (events, h) => (serveQueue c bound rest h).map fun more => events ++ more

/-- The answer to a command that is put into a queue after the host has gone. -/
def goneMessage : String := "Host task is no longer running"

end EsotericHost.Host
