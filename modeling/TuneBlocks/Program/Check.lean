import TuneBlocks.Program.Basic

/-!
# Checking programs

What a program must satisfy before it is run: routines and blocks stored under their own names, an
entry, a block to halt in, blocks that end in their only jump, and jumps that lead somewhere.
`Program.violations` lists all that is wrong, routine by routine and block by block.
-/

namespace TuneBlocks

/-- A rule that a program breaks. -/
inductive Violation where
  | routineKey (key name : String)
  | missingEntry (routine : String) (entry : Label)
  | noHaltingBlock (routine : String)
  | blockKey (routine : String) (key label : Label)
  /-- An instruction, given by its index, follows a jump. -/
  | afterTerminator (routine : String) (label : Label) (index : Nat)
  | unknownTarget (routine : String) (label : Label) (index : Nat) (target : Label)
  | missingTerminator (routine : String) (label : Label)
deriving DecidableEq

namespace Violation

def message : Violation → String
  | routineKey key name => "function stored under '" ++ key ++ "' is named '" ++ name ++ "'"
  | missingEntry routine entry =>
    "function '" ++ routine ++ "': entry block '" ++ entry ++ "' does not exist"
  | noHaltingBlock routine => "function '" ++ routine ++ "' has no empty thread-end block"
  | blockKey routine key label =>
    "function '" ++ routine ++ "': block stored under '" ++ key ++ "' is labelled '" ++ label ++ "'"
  | afterTerminator routine label index =>
    "function '" ++ routine ++ "': block '" ++ label ++
      "' has an instruction after its terminator at " ++ toString index
  | unknownTarget routine label index target =>
    "function '" ++ routine ++ "': block '" ++ label ++ "' instruction " ++ toString index ++
      " targets unknown block '" ++ target ++ "'"
  | missingTerminator routine label =>
    "function '" ++ routine ++ "': block '" ++ label ++ "' does not end in a jump or compare_jump"

end Violation

namespace Routine

/-- What is wrong with the instruction at an index of a block with `size` instructions. -/
def instructionViolations (r : Routine) (label : Label) (size index : Nat) (i : Instruction) :
    List Violation :=
  (if i.isTerminator && index + 1 != size then [.afterTerminator r.name label (index + 1)]
    else []) ++
  (i.targets.filter fun t => !r.blocks.contains t).map (.unknownTarget r.name label index)

/-- What is wrong inside a block. -/
def blockViolations (r : Routine) (b : BasicBlock) : List Violation :=
  (b.instructions.mapIdx fun index i =>
    r.instructionViolations b.label b.instructions.length index i).flatten ++
  (if !b.instructions.isEmpty && b.terminator.isNone then [.missingTerminator r.name b.label]
    else [])

/-- What is wrong with a routine. -/
def violations (r : Routine) : List Violation :=
  (if r.blocks.contains r.entry then [] else [.missingEntry r.name r.entry]) ++
  (if r.haltingBlocks.isEmpty then [.noHaltingBlock r.name] else []) ++
  r.blocks.entries.flatMap fun (key, b) =>
    (if key = b.label then [] else [.blockKey r.name key b.label]) ++ r.blockViolations b

end Routine

namespace Program

/-- What is wrong with a program. -/
def violations (p : Program) : List Violation :=
  p.routines.entries.flatMap fun (key, r) =>
    (if key = r.name then [] else [.routineKey key r.name]) ++ r.violations

end Program

end TuneBlocks
