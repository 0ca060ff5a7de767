import TuneBlocks.Lowering.Loop
import TuneBlocks.Blocks.Registry

/-!
# Core blocks

Start and box nodes, loops and variables.
-/

namespace TuneBlocks.Core

/-- The number of passes of a loop that does not say it. -/
def defaultIterations : Float := 2

/-- A node that only marks a place. -/
def passThrough : LoweringRule := fun _ n exit => do
  let label ← Lowering.newBlock (Lowering.blockStem n)
  Lowering.emit label ((Action.jump exit).tagged n.id)
  return label

/-- The bound of a counted loop: a variable, or a number fixed when the loop is lowered. -/
def iterations (n : Node) : Operand :=
  match (n.inputs.get? "iterations").map Operand.ofInput with
  | some (.var name) => .var name
  | _ => .literal (.number (n.numberInput "iterations" defaultIterations))

/-- A loop with a given number of passes. -/
def repeatRule : LoweringRule := fun scope n exit =>
  Lowering.countedLoop (iterations n) scope n exit

def plugin (σ : Type) : Plugin σ where
  name := "core"
  blocks :=
    [{ type := "start", rule := some passThrough },
      { type := "repeat", rule := some repeatRule },
      { type := "forever", rule := some Lowering.foreverLoop },
      { type := "set_var" },
      { type := "change_var" },
      { type := "box", rule := some passThrough }]

end TuneBlocks.Core
