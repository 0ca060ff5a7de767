import TuneBlocks.Lowering.Chain

/-!
# Compiling graphs

Each start node becomes the routine of one thread, which halts in an empty block behind the chain of
the node.
-/

namespace TuneBlocks

/-- A compiled program, and what was gone around. -/
structure Compilation where
  program : Program
  warnings : List Warning
deriving DecidableEq

namespace Lowering

/-- The routine of the thread that starts at a node. -/
def routineName (start : NodeId) : String := "thread_" ++ start

/-- Lowers the chain of a start node behind the block where the thread ends. -/
def lowerThread (rules : LoweringRules) (g : Graph) (start : NodeId) : Lowering Label := do
  let exit ← newBlock "thread_end"
  lowerChain rules g [] (some start) exit

/-- Compiles one thread. -/
def compileThread (rules : LoweringRules) (g : Graph) (start : NodeId) : Routine × List Warning :=
  let (entry, draft) := lowerThread rules g start Draft.empty
  (⟨routineName start, entry, draft.blocks⟩, draft.warnings)

/-- Compiles a thread for each start node; the warnings come in the same order. -/
def compile (rules : LoweringRules) (g : Graph) (starts : List Node) : Compilation :=
  starts.foldl
    (fun c start =>
      let (routine, warnings) := compileThread rules g start.id
      ⟨c.program.addRoutine routine, c.warnings ++ warnings⟩)
    ⟨.empty, []⟩

end Lowering

end TuneBlocks
