import TuneBlocks.Lowering.Chain

/-!
# Lowering loops
-/

namespace TuneBlocks.Lowering

/-- The variable that counts the passes of a loop. -/
def counterName (id : NodeId) : String := "_loop_iter_" ++ id

/-- A loop that runs its body while its counter is below a bound, which is read before each pass.
The counter is set to zero in one block, tested in a second and increased in a third, where the body
is left. -/
def countedLoop (bound : Operand) : LoweringRule := fun scope n exit => do
  let counter := counterName n.id
  let init ← newBlock ("loop_init_" ++ n.id)
  let cond ← newBlock ("loop_cond_" ++ n.id)
  let increment ← newBlock ("loop_increment_" ++ n.id)
  emit increment ((Action.add counter (.literal (.number 1))).tagged n.id)
  emit increment (Action.jump cond).untagged
  let body ← scope.lowerChain n.body increment
  emit cond ((Action.branch .lt counter bound body exit).tagged n.id)
  emit init ((Action.declare counter (.literal (.number 0))).tagged n.id)
  emit init ((Action.jump cond).tagged n.id)
  return init

/-- A loop that is never left. -/
def foreverLoop : LoweringRule := fun scope n _ => do
  let header ← newBlock ("forever_header_" ++ n.id)
  let body ← scope.lowerChain n.body header
  emit header ((Action.jump body).tagged n.id)
  return header

end TuneBlocks.Lowering
