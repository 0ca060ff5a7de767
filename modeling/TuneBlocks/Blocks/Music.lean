import TuneBlocks.Blocks.Registry
import TuneBlocks.Sink

/-!
# Music blocks

Notes, rests, waits, tempo, volume and messages. Each node becomes a call with its inputs as
arguments; the calls emit events into the sink and put the thread to sleep for as long as they last.
-/

namespace TuneBlocks.Music

/-- Beats in a minute where nothing is said. -/
def defaultTempo : Float := 120

/-- The variable that holds a thread's tempo. -/
def tempoVariable : String := "_tempo"

/-- The beats in a minute of a thread. -/
def tempo (c : Context) : Float :=
  match (c.memory.get? tempoVariable).map Value.toNumber with
  | some bpm => if 0 < bpm then bpm else defaultTempo
  | none => defaultTempo

/-- How long a number of beats lasts, in milliseconds. -/
def beatsToMs (beats : Value) (c : Context) : Float := beats.toNumber * 60000 / tempo c

/-- The loudness of a volume level in percent. -/
def levelToDb (level : Float) : Float :=
  if level ≤ 0 then -100 else 20 * (level / 100).log10

/-- The names of the twelve notes of an octave. -/
def noteNames : List String :=
  ["C", "C#", "D", "D#", "E", "F", "F#", "G", "G#", "A", "A#", "B"]

/-- The name of the note with a number from 0 to 127; the octave of number 0 is −1. -/
def noteName (midi : Nat) : String :=
  noteNames.getD (midi % 12) "" ++ toString ((midi / 12 : Nat) - 1 : Int)

/-- A pitch as it is shown: the note of a whole number from 0 to 127, anything else as it is. -/
def pitchName (pitch : Value) : String :=
  match pitch with
  | .number x =>
    if 0 ≤ x && x ≤ 127 && x.toUInt8.toFloat == x then noteName x.toUInt8.toNat
    else pitch.display
  | _ => pitch.display

/-! ## Calls -/

/-- An argument of a call; a missing one is zero. -/
def arg (args : List Value) (i : Nat) : Value := args.getD i .zero

section
variable {σ : Type} [HasSink σ]

def playNote : Handler σ := fun args now c w =>
  let duration := beatsToMs (arg args 1) c
  ⟨some (.sleeping (now + duration)), c,
    HasSink.emit w (.note (pitchName (arg args 0)) duration now)⟩

def rest : Handler σ := fun args now c w =>
  ⟨some (.sleeping (now + beatsToMs (arg args 0) c)), c, w⟩

def wait : Handler σ := fun args now c w =>
  ⟨some (.sleeping (now + (arg args 0).toNumber * 1000)), c, w⟩

def setTempo : Handler σ := fun args _ c w =>
  ⟨none, c.assign tempoVariable (.number (arg args 0).toNumber), w⟩

def setVolume : Handler σ := fun args now c w =>
  let level := (arg args 0).toNumber
  ⟨none, c, HasSink.emit w (.volume level (levelToDb level) now)⟩

def print : Handler σ := fun args now c w =>
  ⟨none, c, HasSink.emit w (.print (arg args 0).display now)⟩

/-- Opens the sink. -/
def openSink : Hook σ := fun w =>
  match (HasSink.sink w).opened with
  | .ok s => (.ok (), HasSink.setSink w s)
  | .error e => (.error e.message, w)

/-- Closes the sink. -/
def closeSink : Hook σ := fun w => (.ok (), HasSink.setSink w (HasSink.sink w).closed)

end

/-! ## Nodes -/

/-- A node that calls the handler of its type with some of its inputs, given with defaults. -/
def callRule (inputs : List (String × Value)) : LoweringRule := fun _ n exit => do
  let args := inputs.map fun (name, default) => Operand.ofInput (n.valueInput name default)
  let label ← Lowering.newBlock (Lowering.blockStem n)
  Lowering.emit label ((Action.call n.type args).tagged n.id)
  Lowering.emit label (Action.jump exit).untagged
  return label

/-- A block type whose nodes become calls. -/
def callBlock (type : String) (inputs : List (String × Value)) (handler : Handler σ) :
    BlockDef σ where
  type := type
  rule := some (callRule inputs)
  handler := some handler

def plugin (σ : Type) [HasSink σ] : Plugin σ where
  name := "music"
  setUp := some openSink
  cleanUp := some closeSink
  blocks :=
    [callBlock "play_note" [("pitch", .text "C4"), ("beats", .number 1)] playNote,
      callBlock "rest" [("beats", .number 1)] rest,
      callBlock "wait" [("seconds", .number 1)] wait,
      callBlock "set_tempo" [("bpm", .number defaultTempo)] setTempo,
      callBlock "set_volume" [("level", .number 50)] setVolume,
      callBlock "print" [("message", .text "")] print]

end TuneBlocks.Music
