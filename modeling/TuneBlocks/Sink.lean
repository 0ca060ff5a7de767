import TuneBlocks.Decimal.Format
import TuneBlocks.Json.Basic

/-!
# Events and the sink

What a program plays and prints, and the sink that records it. A sink is opened before a program
runs and closed after it.
-/

namespace TuneBlocks

/-- Something heard or seen; `time` is when, in milliseconds. -/
inductive Event where
  | note (pitch : String) (duration time : Float)
  | volume (level db time : Float)
  | print (message : String) (time : Float)
deriving DecidableEq

namespace Event

def time : Event → Float
  | note _ _ t | volume _ _ t | print _ t => t

def display : Event → String
  | note pitch duration _ =>
    "note " ++ pitch ++ " " ++ NumberFormat.display.render duration ++ "ms"
  | volume level db _ =>
    "volume " ++ NumberFormat.display.render level ++ " (" ++ tenths db ++ " dB)"
  | print message _ => "print " ++ message

def toJson : Event → Json
  | note pitch duration t => .object
    [("kind", .text "note"), ("pitch", .text pitch), ("duration_ms", .real duration),
      ("at_ms", .real t)]
  | volume level db t => .object
    [("kind", .text "volume"), ("level", .real level), ("db", .real db), ("at_ms", .real t)]
  | print message t => .object
    [("kind", .text "print"), ("message", .text message), ("at_ms", .real t)]

end Event

inductive SinkError where
  | alreadyOpen
  | unavailable (reason : String)
deriving DecidableEq

namespace SinkError

def message : SinkError → String
  | alreadyOpen => "sink is already open"
  | unavailable reason => "output unavailable: " ++ reason

end SinkError

/-- A sink that keeps the events it is given. One with a reason in `unavailable` never opens. -/
@[ext]
structure Sink where
  /-- The events, the last one first. -/
  recorded : List Event
  isOpen : Bool
  unavailable : Option String
deriving DecidableEq

namespace Sink

/-- A closed sink without events. -/
def new : Sink := ⟨[], false, none⟩

instance : Inhabited Sink := ⟨new⟩

/-- The events in the order in which they were given. -/
def events (s : Sink) : List Event := s.recorded.reverse

/-- The sink after it has been opened, which only an available and closed one can be. -/
def opened (s : Sink) : Except SinkError Sink :=
  match s.unavailable with
  | some reason => .error (.unavailable reason)
  | none => if s.isOpen then .error .alreadyOpen else .ok { s with isOpen := true }

def closed (s : Sink) : Sink := { s with isOpen := false }

def emit (s : Sink) (e : Event) : Sink := { s with recorded := e :: s.recorded }

/-- Forgets the events, which the caller has taken out. -/
def drained (s : Sink) : Sink := { s with recorded := [] }

@[simp] theorem events_emit (s : Sink) (e : Event) : (s.emit e).events = s.events ++ [e] := by
  simp [emit, events]

@[simp] theorem events_drained (s : Sink) : s.drained.events = [] := rfl

end Sink

/-- Worlds with a sink in them. -/
class HasSink (σ : Type) where
  sink : σ → Sink
  setSink : σ → Sink → σ

instance : HasSink Sink where
  sink s := s
  setSink _ s := s

namespace HasSink

variable {σ : Type} [HasSink σ]

def emit (w : σ) (e : Event) : σ := setSink w ((sink w).emit e)

end HasSink

end TuneBlocks
