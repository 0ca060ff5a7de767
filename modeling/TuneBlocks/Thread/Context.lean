import TuneBlocks.Thread.Memory
import TuneBlocks.Program.Instruction

/-!
# Execution contexts

Where a thread is and what it remembers, and how a slice of its execution can end.
-/

namespace TuneBlocks

/-- The state of one thread. -/
@[ext]
structure Context where
  thread : String
  memory : Memory
  /-- The block being executed, and the index of the next instruction in it. -/
  block : Label
  ip : Nat
  /-- The node whose instruction was executed last. -/
  node : Option NodeId
  /-- The node of the breakpoint the thread stopped at, while it is still there. -/
  parked : Option NodeId
deriving DecidableEq

/-- How a slice of execution ends. -/
inductive Status where
  /-- The thread can go on at once. -/
  | ready
  /-- The thread sleeps until the clock reaches a time. -/
  | sleeping (wake : Float)
  | halted
  /-- The thread stopped before an instruction of this node. -/
  | breakpoint (node : NodeId)
deriving DecidableEq

namespace Context

/-- A thread about to enter a block, with nothing remembered. -/
def start (thread : String) (entry : Label) : Context :=
  { thread, memory := .empty, block := entry, ip := 0, node := none, parked := none }

/-- The value of an operand. -/
def resolve (c : Context) : Operand → Value
  | .literal v => v
  | .var name => c.memory.lookup name

/-- Goes on at the first instruction of a block. -/
def jump (c : Context) (target : Label) : Context := { c with block := target, ip := 0 }

def declare (c : Context) (name : String) (v : Value) : Context :=
  { c with memory := c.memory.declare name v }

def assign (c : Context) (name : String) (v : Value) : Context :=
  { c with memory := c.memory.assign name v }

end Context

end TuneBlocks
