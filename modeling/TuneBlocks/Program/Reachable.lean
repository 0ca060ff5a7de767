import TuneBlocks.Marks
import TuneBlocks.Program.Basic

/-!
# Reachable blocks

The blocks that control can get to from the entry of a routine, nearest first.
-/

namespace TuneBlocks.Routine

/-- The labels that a block leads to, instruction by instruction. -/
def successors (r : Routine) (label : Label) : List Label :=
  match r.block? label with
  | some b => b.instructions.flatMap Instruction.targets
  | none => []

/-- Those of the labels that name a block and have not been seen, each once. -/
def unseen (r : Routine) (seen : List Label) : List Label → List Label
  | [] => []
  | t :: rest =>
    if t ∈ r.blocks.keys ∧ t ∉ seen then t :: r.unseen (t :: seen) rest
    else r.unseen seen rest

/-- Each label found leaves one fewer to find. -/
theorem unmarked_unseen (r : Routine) (seen targets : List Label) :
    unmarked r.blocks.keys ((r.unseen seen targets).reverse ++ seen) +
      (r.unseen seen targets).length ≤ unmarked r.blocks.keys seen := by
  induction targets generalizing seen with
  | nil => simp [unseen]
  | cons t rest ih =>
    unfold unseen
    split
    · rename_i h
      have hlt : unmarked r.blocks.keys (t :: seen) < unmarked r.blocks.keys seen :=
        unmarked_lt (fun _ hk => List.mem_cons_of_mem _ hk) h.1 h.2 List.mem_cons_self
      have := ih (t :: seen)
      simp only [List.reverse_cons, List.append_assoc, List.cons_append, List.nil_append,
        List.length_cons]
      omega
    · exact ih seen

/-- Visits the labels of a queue, appending to it those that a visited block leads to. -/
def visit (r : Routine) (seen queue : List Label) : List Label :=
  match queue with
  | [] => []
  | label :: rest =>
    let found := r.unseen seen (r.successors label)
    label :: r.visit (found.reverse ++ seen) (rest ++ found)
termination_by unmarked r.blocks.keys seen + queue.length
decreasing_by
  have := r.unmarked_unseen seen (r.successors label)
  simp only [List.length_append, List.length_cons]
  omega

/-- The keys of the blocks that control can get to, in the order of a breadth-first search. -/
def reachable (r : Routine) : List Label :=
  if r.entry ∈ r.blocks.keys then r.visit [r.entry] [r.entry] else []

/-- The keys of all other blocks. -/
def unreachable (r : Routine) : List Label :=
  let reached := r.reachable
  r.blocks.keys.filter (· ∉ reached)

end TuneBlocks.Routine
