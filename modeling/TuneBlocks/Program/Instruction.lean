import TuneBlocks.Operand

/-!
# Instructions

The instructions of a compiled program. Each may carry the node it was lowered from, which
breakpoints and the display of the active node go by; it has no other effect.
-/

namespace TuneBlocks

abbrev NodeId := String
abbrev Label := String

/-- What an instruction does. -/
inductive Action where
  /-- Binds a variable in the innermost scope. -/
  | declare (name : String) (value : Operand)
  /-- Changes a variable where it is bound. -/
  | assign (name : String) (value : Operand)
  /-- Adds to a variable where it is bound. -/
  | add (name : String) (amount : Operand)
  | jump (target : Label)
  /-- Compares a variable with an operand and jumps to one of two blocks. -/
  | branch (op : Comparison) (left : String) (right : Operand) (ifTrue ifFalse : Label)
  /-- Calls a handler of the registry. -/
  | call (name : String) (args : List Operand)
  /-- Gives up the rest of the slice. -/
  | yield
deriving DecidableEq

structure Instruction where
  action : Action
  /-- The node that the instruction was lowered from. -/
  source : Option NodeId
deriving DecidableEq

namespace Action

def mnemonic : Action → String
  | declare .. => "declare"
  | assign .. => "assign"
  | add .. => "add"
  | jump .. => "jump"
  | branch .. => "compare_jump"
  | call .. => "syscall"
  | yield => "yield"

/-- Whether control never goes on to the next instruction of the block. -/
def isTerminator : Action → Bool
  | jump .. | branch .. => true
  | _ => false

/-- The labels that control may go to. -/
def targets : Action → List Label
  | jump target => [target]
  | branch _ _ _ ifTrue ifFalse => [ifTrue, ifFalse]
  | _ => []

/-- The rest of the listing line, behind the mnemonic. -/
def details : Action → String
  | declare name v | assign name v | add name v => " " ++ name ++ ", " ++ v.listing
  | jump target => " " ++ target
  | branch op left right ifTrue ifFalse =>
    " " ++ left ++ " " ++ op.symbol ++ " " ++ right.listing ++ " ? " ++ ifTrue ++ " : " ++ ifFalse
  | call name args => " " ++ name ++ "(" ++ ", ".intercalate (args.map Operand.listing) ++ ")"
  | yield => ""

/-- The instruction that does this for a node. -/
def tagged (a : Action) (node : NodeId) : Instruction := ⟨a, some node⟩

/-- The instruction that does this for no node in particular. -/
def untagged (a : Action) : Instruction := ⟨a, none⟩

end Action

namespace Instruction

def isTerminator (i : Instruction) : Bool := i.action.isTerminator

def targets (i : Instruction) : List Label := i.action.targets

def listing (i : Instruction) : String :=
  i.action.mnemonic ++ i.action.details ++
    match i.source with
    | some node => " ; " ++ node
    | none => ""

end Instruction

end TuneBlocks
