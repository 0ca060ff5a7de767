import TuneBlocks.Keyed
import TuneBlocks.Program.Instruction

/-!
# Programs

A program is a table of routines, one for each thread, and a routine a table of basic blocks. The
tables may be given any keys; `Program.addRoutine` and `Routine.addBlock` go by the routine's own
name and the block's own label.
-/

namespace TuneBlocks

/-- A straight run of instructions. A block without instructions is where a thread halts. -/
structure BasicBlock where
  label : Label
  instructions : List Instruction
deriving DecidableEq

/-- The code of one thread. -/
structure Routine where
  name : String
  entry : Label
  blocks : Keyed BasicBlock
deriving DecidableEq

structure Program where
  routines : Keyed Routine
deriving DecidableEq

namespace BasicBlock

/-- The last instruction, if control never goes past it. -/
def terminator (b : BasicBlock) : Option Instruction :=
  b.instructions.getLast?.filter Instruction.isTerminator

def isHalting (b : BasicBlock) : Bool := b.instructions.isEmpty

def listing (b : BasicBlock) : String :=
  "  " ++ b.label ++ ":\n" ++
    String.join (b.instructions.map fun i => "    " ++ i.listing ++ "\n")

end BasicBlock

namespace Routine

def block? (r : Routine) (label : Label) : Option BasicBlock := r.blocks.get? label

def addBlock (r : Routine) (b : BasicBlock) : Routine :=
  { r with blocks := r.blocks.insert b.label b }

def haltingBlocks (r : Routine) : List BasicBlock := r.blocks.values.filter BasicBlock.isHalting

def instructionCount (r : Routine) : Nat :=
  (r.blocks.values.map (·.instructions.length)).foldl (· + ·) 0

def listing (r : Routine) : String :=
  "function " ++ r.name ++ " (entry " ++ r.entry ++ "):\n" ++
    String.join (r.blocks.values.map BasicBlock.listing)

end Routine

namespace Program

def empty : Program := ⟨∅⟩

def routine? (p : Program) (name : String) : Option Routine := p.routines.get? name

def addRoutine (p : Program) (r : Routine) : Program :=
  ⟨p.routines.insert r.name r⟩

@[simp] theorem routine?_empty (name : String) : empty.routine? name = none := rfl

@[simp] theorem routine?_addRoutine (p : Program) (r : Routine) (name : String) :
    (p.addRoutine r).routine? name = if name = r.name then some r else p.routine? name :=
  Keyed.get?_insert _ _ _ _

/-- The routines one after the other, with a blank line between them. -/
def listing (p : Program) : String := "\n".intercalate (p.routines.values.map Routine.listing)

end Program

end TuneBlocks
