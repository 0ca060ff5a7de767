import TuneBlocks.Blocks.Standard
import TuneBlocks.Command.Arguments
import TuneBlocks.Command.Files
import TuneBlocks.Graph.Document
import TuneBlocks.Lowering.Compile
import TuneBlocks.Program.Check
import TuneBlocks.Program.Reachable

/-!
# Performing commands

What each command writes to the two output streams, and the code it exits with: 0 on success, 1 for
a graph that cannot be read, 2 for a program that does not pass the check, 3 for a failed run.
-/

namespace TuneBlocks

/-- What has been written to the two output streams. -/
structure Console where
  out : String
  err : String
deriving DecidableEq

namespace Console

def empty : Console := ⟨"", ""⟩

def print (c : Console) (text : String) : Console := { c with out := c.out ++ text }

def printLine (c : Console) (line : String) : Console := c.print (line ++ "\n")

def warnLine (c : Console) (line : String) : Console := { c with err := c.err ++ line ++ "\n" }

def warnLines (c : Console) (lines : List String) : Console := lines.foldl warnLine c

end Console

/-- The streams and the exit code of a command. -/
structure Outcome where
  console : Console
  code : Nat
deriving DecidableEq

namespace Command

/-- The type of the nodes that threads start at. -/
def startType : String := "start"

/-- The world of a run: the sink, and the breakpoints hit and not yet reported, the last first. -/
structure Stage where
  sink : Sink
  hits : List NodeId
deriving DecidableEq

instance : HasSink Stage where
  sink := Stage.sink
  setSink w sink := { w with sink }

/-- Reads a graph; without one the command ends. -/
def readGraph (path : String) (contents : Except ReadError String) (c : Console) :
    Except Outcome Graph :=
  match contents with
  | .error e =>
    .error ⟨c.warnLine ("error: cannot read '" ++ path ++ "': " ++ e.message), 1⟩
  | .ok text =>
    match Graph.ofText text with
    | .error e => .error ⟨c.warnLine ("error: " ++ e.message), 1⟩
    | .ok g => .ok g

/-- Compiles a graph with the standard blocks, with a warning for each oddity. -/
def compileGraph (g : Graph) (c : Console) : Program × Console :=
  let starts := g.startNodes startType
  let c :=
    if starts.isEmpty then c.warnLine ("warning: no '" ++ startType ++ "' block; nothing to run")
    else c
  let compilation := Lowering.compile (Registry.standard Stage).rules g starts
  (compilation.program, c.warnLines (compilation.warnings.map fun w => "warning: " ++ w.message))

/-- Checks a program; one that does not pass ends the command. -/
def checkProgram (p : Program) (c : Console) : Except Outcome Unit :=
  match p.violations with
  | [] => .ok ()
  | vs => .error ⟨c.warnLines (vs.map fun v => "error: " ++ v.message), 2⟩

/-! ## Running -/

/-- The line of an event. -/
def eventLine (json : Bool) (e : Event) : String :=
  if json then e.toJson.render
  else "t=" ++ NumberFormat.display.render e.time ++ " " ++ e.display

/-- A run with what it has written. -/
structure Performance where
  session : Session Stage
  stage : Stage
  console : Console

namespace Performance

/-- Prints the events that the sink holds. -/
def printEvents (p : Performance) (json : Bool) : Performance :=
  { p with
    stage := { p.stage with sink := p.stage.sink.drained }
    console := p.stage.sink.events.foldl (fun c e => c.printLine (eventLine json e)) p.console }

/-- Prints the breakpoints hit since the last report. -/
def reportHits (p : Performance) : Performance :=
  let time := NumberFormat.display.render p.session.scheduler.clock
  { p with
    stage := { p.stage with hits := [] }
    console := p.stage.hits.reverse.foldl
      (fun c node => c.printLine ("breakpoint " ++ node ++ " at t=" ++ time)) p.console }

def pulse (p : Performance) (o : RunOptions) : Performance :=
  let (session, stage) := p.session.pulse o.pulse o.budget p.stage
  { p with session, stage }

def step (p : Performance) : Performance :=
  let (session, stage) := p.session.step p.stage
  { p with session, stage }

/-- Single steps in place of a slice, each with its report; then the scheduler runs on. -/
def stepThrough : Nat → Performance → Performance
  | 0, p => { p with session := p.session.resume }
  | steps + 1, p =>
    if p.session.scheduler.isIdle then { p with session := p.session.resume }
    else stepThrough steps p.step.reportHits

/-- One pulse with its reports; if it stops at a breakpoint, single steps get past it. -/
def advance (p : Performance) (flags : RunFlags) : Performance :=
  let p := (p.pulse flags.options).printEvents flags.json
  if p.session.scheduler.paused then
    (stepThrough flags.options.budget p.reportHits).printEvents flags.json
  else p

/-- Pulses until no thread is left, at most `limit` times; the pulses are counted from `count`. -/
def play (flags : RunFlags) : (limit count : Nat) → Performance → Nat × Performance
  | 0, count, p => (count, p)
  | limit + 1, count, p =>
    if p.session.scheduler.isIdle then (count, p)
    else play flags limit (count + 1) (p.advance flags)

/-- The line that says how the run ended. -/
def summary (p : Performance) (pulses : Nat) : String :=
  let scheduler := p.session.scheduler
  let time := NumberFormat.display.render scheduler.clock
  if scheduler.isIdle then "finished after " ++ toString pulses ++ " pulses at t=" ++ time
  else
    "stopped after " ++ toString pulses ++ " pulses at t=" ++ time ++ " with " ++
      toString (scheduler.ready.length + scheduler.asleep.length) ++ " threads live"

end Performance

/-- Runs a program that has passed the check. -/
def runProgram (p : Program) (flags : RunFlags) (c : Console) : Outcome :=
  match Session.start ⟨p, .standard Stage⟩ ⟨.new, []⟩ with
  | (.error e, _) => ⟨c.warnLine ("error: " ++ e.message), 3⟩
  | (.ok session, stage) =>
    let session := (session.setBreakpoints flags.breakpoints).onHit
      fun node w => { w with hits := node :: w.hits }
    let (pulses, p) := Performance.play flags flags.options.maxPulses 0 ⟨session, stage, c⟩
    let c := p.console.warnLine (p.summary pulses)
    match p.session.finish p.stage with
    | (.ok (), _) => ⟨c, 0⟩
    | (.error e, _) => ⟨c.warnLine ("error: " ++ e.message), 3⟩

/-! ## The commands -/

/-- The line for a program that has passed the check. -/
def summary (path : String) (p : Program) : String :=
  let instructions := (p.routines.values.map Routine.instructionCount).foldl (· + ·) 0
  "OK: " ++ path ++ " (" ++ toString p.routines.size ++ " threads, " ++ toString instructions ++
    " instructions)"

/-- The lines for blocks that no thread gets to. -/
def unreachableNotes (p : Program) : List String :=
  p.routines.values.flatMap fun r =>
    r.unreachable.map fun label =>
      "note: block '" ++ label ++ "' in '" ++ r.name ++ "' is unreachable"

/-- Performs a command on the contents of its file. -/
def perform (command : Command) (contents : Except ReadError String) : Outcome :=
  let result : Except Outcome Outcome := do
    let g ← readGraph command.path contents .empty
    let (p, c) := compileGraph g .empty
    match command with
    | compile _ => return ⟨c.print p.listing, 0⟩
    | verify path =>
      checkProgram p c
      return ⟨(c.warnLines (unreachableNotes p)).printLine (summary path p), 0⟩
    | run _ flags =>
      checkProgram p c
      return runProgram p flags c
  match result with
  | .ok o | .error o => o

end Command

end TuneBlocks
