import TuneBlocks.Scheduler

/-!
# Sessions

A session runs a program between the hooks of its registry: those before the run when it starts, and
those after the run once, when it is finished or, failing that, when it is released.
-/

namespace TuneBlocks

/-- How a program is run. -/
structure RunOptions where
  /-- Virtual milliseconds in a pulse. -/
  pulse : Float
  maxPulses : Nat
  /-- Instructions in a slice. -/
  budget : Nat
deriving DecidableEq

def RunOptions.default : RunOptions := ⟨16, 10000, Scheduler.defaultBudget⟩

/-- How a run went. -/
structure RunReport where
  pulses : Nat
  time : Float
  finished : Bool
deriving DecidableEq

/-- A program being run. -/
structure Session (σ : Type) where
  interpreter : Interpreter σ
  scheduler : Scheduler (Machine σ)
  breakpoints : List NodeId
  /-- Whether the hooks after the run have been called. -/
  finished : Bool

namespace Session

variable {σ : Type}

/-- The threads of a program, one for each routine. -/
def threadsOf (p : Program) : Scheduler (Machine σ) :=
  p.routines.values.foldl (fun s r => s.schedule r.name r.name r.entry) .new

/-- Calls the hooks before the run and makes the threads ready. If a hook fails, those after the run
are called at once and there is no session. -/
def start (m : Interpreter σ) (w : σ) : Except HookError (Session σ) × σ :=
  match m.registry.setUpAll w with
  | (.ok (), w) => (.ok ⟨m, threadsOf m.program, [], false⟩, w)
  | (.error e, w) => (.error e, (m.registry.cleanUpAll w).2)

/-- Does something with the scheduler. -/
def update (s : Session σ) (w : σ)
    (f : Executor (Machine σ) → Scheduler (Machine σ) → Machine σ →
      Scheduler (Machine σ) × Machine σ) : Session σ × σ :=
  let (scheduler, machine) := f s.interpreter.executor s.scheduler ⟨s.breakpoints, w⟩
  ({ s with scheduler, breakpoints := machine.breakpoints }, machine.world)

def pulse (s : Session σ) (delta : Float) (budget : Nat) (w : σ) : Session σ × σ :=
  s.update w fun ex => Scheduler.pulse ex delta budget

def step (s : Session σ) (w : σ) : Session σ × σ := s.update w Scheduler.step

def pause (s : Session σ) : Session σ := { s with scheduler := s.scheduler.pause }

def resume (s : Session σ) : Session σ := { s with scheduler := s.scheduler.resume }

def setBreakpoints (s : Session σ) (breakpoints : List NodeId) : Session σ :=
  { s with breakpoints }

/-- Has a function told of the node of every breakpoint hit. -/
def onHit (s : Session σ) (tell : NodeId → σ → σ) : Session σ :=
  { s with scheduler := { s.scheduler with
      onHit := some fun node machine => { machine with world := tell node machine.world } } }

/-- Calls the hooks after the run. -/
def finish (s : Session σ) (w : σ) : Except HookError Unit × Session σ × σ :=
  let (result, w) := s.interpreter.registry.cleanUpAll w
  (result, { s with finished := true }, w)

/-- Ends a session: one that was not finished calls the hooks after the run, whatever they
answer. -/
def release (s : Session σ) (w : σ) : σ :=
  if s.finished then w else (s.interpreter.registry.cleanUpAll w).2

/-- Pulses until no thread is left, at most `limit` times; the pulses are counted from `count`. -/
def runPulses (delta : Float) (budget : Nat) :
    (limit count : Nat) → Session σ → σ → Nat × Session σ × σ
  | 0, count, s, w => (count, s, w)
  | limit + 1, count, s, w =>
    if s.scheduler.isIdle then (count, s, w)
    else
      let (s, w) := s.pulse delta budget w
      runPulses delta budget limit (count + 1) s w

end Session

/-- Runs a program from start to finish, or up to the limit of pulses. -/
def Interpreter.runProgram {σ : Type} (m : Interpreter σ) (o : RunOptions) (w : σ) :
    Except HookError RunReport × σ :=
  match Session.start m w with
  | (.error e, w) => (.error e, w)
  | (.ok s, w) =>
    let (pulses, s, w) := Session.runPulses o.pulse o.budget o.maxPulses 0 s w
    let report : RunReport := ⟨pulses, s.scheduler.clock, s.scheduler.isIdle⟩
    let (result, s, w) := s.finish w
    (result.map fun () => report, s.release w)

end TuneBlocks
