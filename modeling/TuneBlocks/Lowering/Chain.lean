import TuneBlocks.Graph.Basic
import TuneBlocks.Lowering.Draft
import TuneBlocks.Marks

/-!
# Lowering chains

A chain of nodes becomes a region of blocks that is entered at the first node and left at a given
label. Chains are lowered from their end, so that each node knows where control goes after it. The
nodes of a chain are active while it is lowered, bodies included: a link to an active node closes a
cycle, which is cut there with a warning. Every nested chain has fewer inactive nodes left to it, so
lowering ends on every graph.
-/

namespace TuneBlocks

namespace Graph

/-- The nodes met from a link along `next`, up to a missing or an active node; in the latter case
also the id at which the chain was cut. -/
def chain (g : Graph) (active : List NodeId) (start : Option NodeId) :
    List Node × Option NodeId :=
  match start with
  | none => ([], none)
  | some id =>
    match _h : g.get? id with
    | none => ([], none)
    | some n =>
      if _hid : id ∈ active then ([], some id)
      else
        let (rest, cut) := g.chain (id :: active) n.next
        (n :: rest, cut)
termination_by unmarked g.ids active
decreasing_by
  refine unmarked_lt (fun i hi => List.mem_cons_of_mem _ hi) ?_ _hid
    List.mem_cons_self
  rw [← id_of_get? _h]
  exact List.mem_map_of_mem (mem_of_get? _h)

theorem chain_head {g : Graph} {active : List NodeId} {start : Option NodeId} {n : Node}
    {rest : List Node} {cut : Option NodeId} (h : g.chain active start = (n :: rest, cut)) :
    n.id ∈ g.ids ∧ n.id ∉ active := by
  unfold chain at h
  split at h
  · simp at h
  · split at h
    · simp at h
    · rename_i id m hget
      split at h
      · simp at h
      · rename_i hid
        simp only [Prod.mk.injEq, List.cons.injEq] at h
        obtain ⟨⟨rfl, -⟩, -⟩ := h
        rw [id_of_get? hget]
        exact ⟨id_of_get? hget ▸ List.mem_map_of_mem (mem_of_get? hget), hid⟩

end Graph

/-- What the rule of a node can build on: the graph, and the lowering of nested chains. -/
structure LoweringScope where
  graph : Graph
  /-- Lowers the chain from a link so that it is left at a label; gives its first label. -/
  lowerChain : Option NodeId → Label → Lowering Label

/-- How a node is lowered so that it is left at a label; the result is its first label. -/
abbrev LoweringRule := LoweringScope → Node → Label → Lowering Label

/-- The rules of the known block types. -/
abbrev LoweringRules := String → Option LoweringRule

namespace Lowering

/-- The stem of the label of a node's own block. -/
def blockStem (n : Node) : String := "block_" ++ n.type ++ "_" ++ n.id

/-- The variable that a node works on. -/
def variableOf (n : Node) : String :=
  match n.inputs.get? "varName" with
  | some v => v.display
  | none => "myVar"

/-- What a variable node does, for the types that need no rule. -/
def variableAction? (n : Node) : Option Action :=
  match n.type with
  | "set_var" => some (.assign (variableOf n) (.ofInput (n.valueInput "value" (.number 1))))
  | "change_var" => some (.add (variableOf n) (.ofInput (n.valueInput "amount" (.number 1))))
  | _ => none

/-- Lowers one node: by its rule, or as a variable node; any other node is skipped. -/
def lowerNode (rules : LoweringRules) (scope : LoweringScope) (n : Node) (next : Label) :
    Lowering Label :=
  match rules n.type with
  | some rule => rule scope n next
  | none =>
    match variableAction? n with
    | some action => do
      let label ← newBlock (blockStem n)
      emit label (action.tagged n.id)
      emit label (Action.jump next).untagged
      return label
    | none => do
      warn (.unknownType n.id n.type)
      return next

/-- Lowers nodes in a row from the last to the first. -/
def lowerNodes (lower : Node → Label → Lowering Label) (exit : Label) :
    List Node → Lowering Label
  | [] => pure exit
  | n :: rest => do
    let next ← lowerNodes lower exit rest
    lower n next

/-- Warns of a cut chain. -/
def warnCut : Option NodeId → Lowering Unit
  | some id => warn (.cyclicChain id)
  | none => pure ()

/-- Lowers the chain from a link so that it is left at `exit`; gives the label of its first block,
or `exit` where it has none. -/
def lowerChain (rules : LoweringRules) (g : Graph) (active : List NodeId) (start : Option NodeId)
    (exit : Label) : Lowering Label :=
  match _h : g.chain active start with
  | ([], cut) => do
    warnCut cut
    return exit
  | (n :: rest, cut) => do
    warnCut cut
    let scope : LoweringScope :=
      { graph := g
        lowerChain := fun start exit =>
          lowerChain rules g ((n :: rest).map Node.id ++ active) start exit }
    lowerNodes (lowerNode rules scope) exit (n :: rest)
termination_by unmarked g.ids active
decreasing_by
  exact unmarked_lt (fun i hi => List.mem_append_right _ hi) (Graph.chain_head _h).1
    (Graph.chain_head _h).2 (by simp)

theorem lowerChain_of_chain_nil {rules : LoweringRules} {g : Graph} {active : List NodeId}
    {start cut : Option NodeId} (exit : Label) (h : g.chain active start = ([], cut)) :
    lowerChain rules g active start exit = (do warnCut cut; return exit) := by
  rw [lowerChain]
  split
  · rename_i h'
    rw [h] at h'
    cases h'
    rfl
  · rename_i h'
    rw [h] at h'
    cases h'

theorem lowerChain_of_chain_cons {rules : LoweringRules} {g : Graph} {active : List NodeId}
    {start cut : Option NodeId} {n : Node} {rest : List Node} (exit : Label)
    (h : g.chain active start = (n :: rest, cut)) :
    lowerChain rules g active start exit = (do
      warnCut cut
      lowerNodes
        (lowerNode rules ⟨g, lowerChain rules g ((n :: rest).map Node.id ++ active)⟩) exit
        (n :: rest)) := by
  rw [lowerChain]
  split
  · rename_i h'
    rw [h] at h'
    cases h'
  · rename_i h'
    rw [h] at h'
    cases h'
    rfl

end Lowering

end TuneBlocks
