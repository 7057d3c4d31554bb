import Behavioral.Fault
import Behavioral.Stream.Message

/-!
# Where messages go

A sink takes one message at a time and may refuse any of them; nothing is sent after a refusal. A
log takes every message. A channel takes them as long as someone listens at its other end.
-/

namespace Behavioral

/-- Takes a message into a state, or refuses it. -/
abbrev Sink (σ : Type) := Message → σ → Except Fault σ

namespace Sink

/-- Sends messages until one is refused. The state is what the sink has taken. -/
def sendAll {σ : Type} (sink : Sink σ) : List Message → σ → Option Fault × σ
  | [], taken => (none, taken)
  | m :: rest, taken =>
    match sink m taken with
    | .ok taken => sendAll sink rest taken
    | .error fault => (some fault, taken)

def log : Sink (List Message) := fun m taken =>
  .ok (taken ++ [m])

/-- A channel with or without a listener. -/
def channel (listening : Bool) : Sink (List Message) := fun m received =>
  if listening then .ok (received ++ [m]) else .error (.evaluation .sinkClosed)

end Sink

def AtomTable.emit {σ : Type} (t : AtomTable) (name : String) (sink : Sink σ) (taken : σ) :
    Option Fault × σ :=
  sink.sendAll (t.messages name) taken

def Composition.emit {σ : Type} (c : Composed) (sink : Sink σ) (taken : σ) : Option Fault × σ :=
  sink.sendAll (Composition.messages c) taken

end Behavioral
