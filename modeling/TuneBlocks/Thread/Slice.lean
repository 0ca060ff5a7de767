import TuneBlocks.Program.Basic
import TuneBlocks.Blocks.Registry

/-!
# Running slices

A thread runs in slices of at most a given number of instructions. `Interpreter.turn` is one turn:
it finds the next instruction, stops before it at a breakpoint, or executes it. A breakpoint stops a
thread once for each arrival at its node: the thread remembers where it is parked until it executes
an instruction of another node.
-/

namespace TuneBlocks

/-- What the threads of a program run with. -/
structure Interpreter (σ : Type) where
  program : Program
  registry : Registry σ

/-- What the slices change besides the thread: the breakpoints in force are set from outside. -/
structure Machine (σ : Type) where
  breakpoints : List NodeId
  world : σ

/-- The end of a slice, with the thread and the world as they are then. -/
structure SliceEnd (σ : Type) where
  status : Status
  context : Context
  world : σ

/-- The outcome of one turn. -/
inductive Turn (σ : Type) where
  /-- The slice ends. -/
  | stop (result : SliceEnd σ)
  /-- The next instruction may follow. -/
  | next (context : Context) (world : σ)

namespace Interpreter

variable {σ : Type}

/-- The next instruction of a thread. -/
def fetch? (routine : Routine) (c : Context) : Option Instruction :=
  (routine.block? c.block).bind fun b => b.instructions[c.ip]?

/-- Whether a thread stops before an instruction: it belongs to a node with a breakpoint at which
the thread is not parked. -/
def stopsAt? (breakpoints : List NodeId) (c : Context) (i : Instruction) : Option NodeId :=
  i.source.filter fun node => node ∈ breakpoints && c.parked != some node

/-- The thread as it goes past an instruction: it stays parked only at the instruction's node. -/
def advance (c : Context) (i : Instruction) : Context :=
  { c with
    ip := c.ip + 1
    node := i.source.or c.node
    parked := c.parked.filter fun node => i.source == some node }

/-- Does what an instruction asks for. -/
def execute (registry : Registry σ) (action : Action) (now : Float) (c : Context) (w : σ) :
    Turn σ :=
  match action with
  | .declare name v => .next (c.declare name (c.resolve v)) w
  | .assign name v => .next (c.assign name (c.resolve v)) w
  | .add name amount => .next (c.assign name ((c.memory.lookup name).add (c.resolve amount))) w
  | .jump target => .next (c.jump target) w
  | .branch op left right ifTrue ifFalse =>
    .next (c.jump (if (c.memory.lookup left).compare op (c.resolve right) then ifTrue else ifFalse))
      w
  | .call name args =>
    match registry.handler? name with
    | none => .next c w
    | some handler =>
      let reply := handler (args.map c.resolve) now c w
      match reply.status with
      | some status => .stop ⟨status, reply.context, reply.world⟩
      | none => .next reply.context reply.world
  | .yield => .stop ⟨.ready, c, w⟩

/-- One turn of a thread. -/
def turn (registry : Registry σ) (routine : Routine) (breakpoints : List NodeId) (now : Float)
    (c : Context) (w : σ) : Turn σ :=
  match fetch? routine c with
  | none => .stop ⟨.halted, c, w⟩
  | some i =>
    match stopsAt? breakpoints c i with
    | some node => .stop ⟨.breakpoint node, { c with parked := some node }, w⟩
    | none => execute registry i.action now (advance c i) w

/-- Turns of a thread until the slice ends or the budget is spent. -/
def run (registry : Registry σ) (routine : Routine) (breakpoints : List NodeId) (now : Float) :
    Nat → Context → σ → SliceEnd σ
  | 0, c, w => ⟨.ready, c, w⟩
  | budget + 1, c, w =>
    match turn registry routine breakpoints now c w with
    | .stop result => result
    | .next c w => run registry routine breakpoints now budget c w

/-- A slice of a thread in a routine of the program; without the routine the thread halts. -/
def slice (m : Interpreter σ) (breakpoints : List NodeId) (routine : String) (c : Context)
    (budget : Nat) (now : Float) (w : σ) : SliceEnd σ :=
  match m.program.routine? routine with
  | none => ⟨.halted, c, w⟩
  | some r => run m.registry r breakpoints now budget c w

end Interpreter

end TuneBlocks
