import TuneBlocks.Thread.Slice

/-!
# Scheduling

Threads take turns in virtual time. Each pulse moves the clock on, wakes the sleepers whose time has
come, and gives every thread that is ready one slice, in the order of the queue. A breakpoint stops
the pass and pauses the scheduler; single steps go on from there. The scheduler does not know what
executes the slices: that is an `Executor`, whose own state `σ` is threaded through.
-/

namespace TuneBlocks

/-- Something that runs slices of threads. -/
structure Executor (σ : Type) where
  /-- Runs a slice: thread, routine, context, budget and time. -/
  slice : String → String → Context → Nat → Float → σ → SliceEnd σ
  setBreakpoints : List NodeId → σ → σ

/-- Executes the slices of a program, keeping the breakpoints beside the world. -/
def Interpreter.executor {σ : Type} (m : Interpreter σ) : Executor (Machine σ) where
  slice _ routine c budget now s :=
    let result := m.slice s.breakpoints routine c budget now s.world
    ⟨result.status, result.context, { s with world := result.world }⟩
  setBreakpoints breakpoints s := { s with breakpoints }

structure Thread where
  id : String
  routine : String
  context : Context
deriving DecidableEq

/-- A thread that sleeps. -/
structure Sleeper where
  thread : Thread
  wake : Float
deriving DecidableEq

/-- The threads and the clock. `onHit` is told of the node of every breakpoint hit. -/
structure Scheduler (σ : Type) where
  ready : List Thread
  asleep : List Sleeper
  clock : Float
  paused : Bool
  onHit : Option (NodeId → σ → σ)

namespace Scheduler

/-- The budget of a slice where nothing is said. -/
def defaultBudget : Nat := 10

variable {σ : Type}

/-- No threads, at time zero. -/
def new : Scheduler σ := ⟨[], [], 0, false, none⟩

/-- Adds a thread that is about to enter a block of a routine. -/
def schedule (s : Scheduler σ) (id routine : String) (entry : Label) : Scheduler σ :=
  { s with ready := s.ready ++ [⟨id, routine, .start id entry⟩] }

def pause (s : Scheduler σ) : Scheduler σ := { s with paused := true }

def resume (s : Scheduler σ) : Scheduler σ := { s with paused := false }

/-- All threads, those that are ready first. -/
def threads (s : Scheduler σ) : List Thread := s.ready ++ s.asleep.map Sleeper.thread

def isIdle (s : Scheduler σ) : Bool := s.ready.isEmpty && s.asleep.isEmpty

/-- The first thread with an id. -/
def thread? (s : Scheduler σ) (id : String) : Option Thread := s.threads.find? (·.id == id)

/-- The nodes that the threads executed last, each once. -/
def activeNodes (s : Scheduler σ) : List NodeId :=
  (s.threads.filterMap (·.context.node)).eraseDups

/-- Moves the sleepers whose time has come behind the threads that are ready. -/
def wake (s : Scheduler σ) : Scheduler σ :=
  let (due, pending) := s.asleep.partition (·.wake ≤ s.clock)
  { s with ready := s.ready ++ due.map Sleeper.thread, asleep := pending }

/-- Gives a slice to each of the first `count` threads of the queue, up to a breakpoint. A thread
that stops at a breakpoint stays in front. -/
def runSlices (ex : Executor σ) (budget : Nat) : Nat → Scheduler σ → σ → Scheduler σ × σ
  | 0, s, w => (s, w)
  | count + 1, s, w =>
    match s.ready with
    | [] => (s, w)
    | t :: queue =>
      let result := ex.slice t.id t.routine t.context budget s.clock w
      let t := { t with context := result.context }
      match result.status with
      | .ready => runSlices ex budget count { s with ready := queue ++ [t] } result.world
      | .sleeping wake =>
        runSlices ex budget count { s with ready := queue, asleep := s.asleep ++ [⟨t, wake⟩] }
          result.world
      | .halted => runSlices ex budget count { s with ready := queue } result.world
      | .breakpoint node =>
        ({ s with ready := t :: queue, paused := true },
          match s.onHit with
          | some tell => tell node result.world
          | none => result.world)

/-- Moves the clock on and gives each thread that is ready a slice. While the scheduler is paused
only the clock moves and sleepers wake, unless the budget is a single instruction or none. -/
def pulse (ex : Executor σ) (delta : Float) (budget : Nat) (s : Scheduler σ) (w : σ) :
    Scheduler σ × σ :=
  let s := { s with clock := s.clock + delta }.wake
  if s.paused && 1 < budget then (s, w) else runSlices ex budget s.ready.length s w

/-- Executes one instruction of the first thread, and leaves the scheduler paused. -/
def step (ex : Executor σ) (s : Scheduler σ) (w : σ) : Scheduler σ × σ :=
  let (s, w) := runSlices ex 1 1 s.resume.wake w
  (s.pause, w)

end Scheduler

end TuneBlocks
