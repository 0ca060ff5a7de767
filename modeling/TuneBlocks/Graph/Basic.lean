import TuneBlocks.Keyed
import TuneBlocks.Program.Instruction

/-!
# Block graphs

A block program as it is drawn: nodes with inputs, each linked to the node that follows it and, for
loops, to the first node of its body.
-/

namespace TuneBlocks

/-- A block of the program. -/
structure Node where
  id : NodeId
  type : String
  inputs : Keyed Value
  /-- The node that follows. -/
  next : Option NodeId
  /-- The first node of the body. -/
  body : Option NodeId
deriving DecidableEq

namespace Node

/-- The nodes that a node links to. -/
def links (n : Node) : List NodeId := n.next.toList ++ n.body.toList

/-- An input, or a default where it is absent. -/
def valueInput (n : Node) (name : String) (default : Value) : Value :=
  (n.inputs.get? name).getD default

/-- An input as a number, or a default where it is absent or not numeric. -/
def numberInput (n : Node) (name : String) (default : Float) : Float :=
  match n.inputs.get? name with
  | some v => if v.isNumeric then v.toNumber else default
  | none => default

end Node

/-- Nodes with distinct ids, in the order of the document. -/
@[ext]
structure Graph where
  nodes : List Node
  nodup_ids : (nodes.map Node.id).Nodup
deriving DecidableEq

namespace Graph

def empty : Graph := ⟨[], .nil⟩

instance : Inhabited Graph := ⟨empty⟩

def ids (g : Graph) : List NodeId := g.nodes.map Node.id

def get? (g : Graph) (id : NodeId) : Option Node := g.nodes.find? (·.id == id)

/-- Adds a node at the end, unless its id is taken. -/
def add? (g : Graph) (n : Node) : Option Graph :=
  if h : n.id ∈ g.ids then none
  else some
    { nodes := g.nodes ++ [n]
      nodup_ids := by
        rw [List.map_append, List.nodup_append]
        refine ⟨g.nodup_ids, by simp, ?_⟩
        intro a ha b hb
        simp only [List.map_cons, List.map_nil, List.mem_singleton] at hb
        rintro rfl
        exact h (hb ▸ ha) }

/-- The nodes that no link leads to. -/
def roots (g : Graph) : List Node :=
  let linked := g.nodes.flatMap Node.links
  g.nodes.filter fun n => !linked.contains n.id

/-- The roots of a given type. -/
def startNodes (g : Graph) (type : String) : List Node :=
  g.roots.filter (·.type == type)

theorem mem_of_get? {g : Graph} {id : NodeId} {n : Node} (h : g.get? id = some n) :
    n ∈ g.nodes := List.mem_of_find?_eq_some h

theorem id_of_get? {g : Graph} {id : NodeId} {n : Node} (h : g.get? id = some n) :
    n.id = id := by
  have := List.find?_some h
  simpa using this

theorem get?_eq_none_iff {g : Graph} {id : NodeId} : g.get? id = none ↔ id ∉ g.ids := by
  simp [get?, ids]

/-- Nodes of a graph with one id are one node. -/
theorem eq_of_id_eq {g : Graph} {m n : Node} (hm : m ∈ g.nodes) (hn : n ∈ g.nodes)
    (h : m.id = n.id) : m = n := by
  have distinct := List.pairwise_iff_getElem.1 (List.pairwise_map.1 g.nodup_ids)
  obtain ⟨i, hi, rfl⟩ := List.getElem_of_mem hm
  obtain ⟨j, hj, rfl⟩ := List.getElem_of_mem hn
  rcases Nat.lt_trichotomy i j with hlt | rfl | hlt
  · exact absurd h (distinct i j hi hj hlt)
  · rfl
  · exact absurd h.symm (distinct j i hj hi hlt)

/-- Ids are distinct, so a node is found under its own id. -/
theorem get?_eq_some_iff {g : Graph} {id : NodeId} {n : Node} :
    g.get? id = some n ↔ n ∈ g.nodes ∧ n.id = id := by
  refine ⟨fun h => ⟨mem_of_get? h, id_of_get? h⟩, ?_⟩
  rintro ⟨hn, rfl⟩
  cases h : g.get? n.id with
  | none => exact absurd (List.mem_map_of_mem hn) (get?_eq_none_iff.1 h)
  | some m => rw [eq_of_id_eq (mem_of_get? h) hn (id_of_get? h)]

end Graph

end TuneBlocks
