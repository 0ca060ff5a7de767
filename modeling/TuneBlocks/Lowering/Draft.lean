import TuneBlocks.Program.Basic

/-!
# Drafts of routines

The state of lowering one thread: the blocks written so far, how many labels have been given out,
and the warnings raised. A label ends in its own number, so no two labels of a draft agree.
-/

namespace TuneBlocks

/-- Something about a graph that lowering went around. -/
inductive Warning where
  | unknownType (node : NodeId) (type : String)
  | cyclicChain (node : NodeId)
deriving DecidableEq

namespace Warning

def message : Warning → String
  | unknownType node type => "unknown block type '" ++ type ++ "' at node '" ++ node ++
      "'; node skipped"
  | cyclicChain node => "chain re-enters node '" ++ node ++ "'; cycle cut"

end Warning

/-- A routine being written. -/
@[ext]
structure Draft where
  /-- How many labels have been given out. -/
  allocated : Nat
  blocks : Keyed BasicBlock
  warnings : List Warning
deriving DecidableEq

namespace Draft

def empty : Draft := ⟨0, ∅, []⟩

/-- The label with a given stem and number. -/
def label (stem : String) (number : Nat) : Label := stem ++ "_" ++ toString number

end Draft

/-- Computations that write a draft. -/
abbrev Lowering := StateM Draft

namespace Lowering

/-- Adds an empty block under a new label. -/
def newBlock (stem : String) : Lowering Label := fun d =>
  let number := d.allocated + 1
  let label := Draft.label stem number
  (label, { d with allocated := number, blocks := d.blocks.insert label ⟨label, []⟩ })

/-- Appends an instruction to a block, which is added if it does not exist. -/
def emit (label : Label) (i : Instruction) : Lowering Unit := fun d =>
  let blocks := d.blocks.upsert label fun
    | some b => { b with instructions := b.instructions ++ [i] }
    | none => ⟨label, [i]⟩
  ((), { d with blocks })

def warn (w : Warning) : Lowering Unit := fun d =>
  ((), { d with warnings := d.warnings ++ [w] })

end Lowering

end TuneBlocks
