import TuneBlocks.Blocks.Standard

/-!
# Outlines

The part of a graph that lowering follows from a link, unfolded into a finite tree: the nodes of a
chain one after the other, and below each loop the outline of its body. `Graph.outline` takes the
same turns as `Lowering.lowerChain`: a chain ends at a missing node or is cut at an active one.

With the standard blocks the type of a node decides what it is lowered to (`Node.kind`,
`lowerNode_standard`). For a graph whose links close no cycle the outline says what the links say
(`Outline.Follows`).
-/

namespace TuneBlocks

/-- What the standard blocks make of a node. -/
inductive Kind where
  /-- Only marks a place. -/
  | place
  | act (a : Action)
  | counted (bound : Operand)
  | forever
  /-- Nothing is known under the type of the node. -/
  | unknown
deriving DecidableEq

/-- Whether the body of the node is followed. -/
def Kind.isLoop : Kind → Bool
  | .counted _ | .forever => true
  | _ => false

namespace Node

/-- A call of the handler of the node's type with some of its inputs, given with defaults. -/
def call (n : Node) (inputs : List (String × Value)) : Kind :=
  .act <| .call n.type <| inputs.map fun (name, default) =>
    Operand.ofInput (n.valueInput name default)

/-- What a node is, by its type. -/
def kind (n : Node) : Kind :=
  match n.type with
  | "start" | "box" => .place
  | "set_var" =>
    .act (.assign (Lowering.variableOf n) (.ofInput (n.valueInput "value" (.number 1))))
  | "change_var" =>
    .act (.add (Lowering.variableOf n) (.ofInput (n.valueInput "amount" (.number 1))))
  | "repeat" => .counted (Core.iterations n)
  | "forever" => .forever
  | "play_note" => n.call [("pitch", .text "C4"), ("beats", .number 1)]
  | "rest" => n.call [("beats", .number 1)]
  | "wait" => n.call [("seconds", .number 1)]
  | "set_tempo" => n.call [("bpm", .number Music.defaultTempo)]
  | "set_volume" => n.call [("level", .number 50)]
  | "print" => n.call [("message", .text "")]
  | _ => .unknown

end Node

/-! ## The standard rules -/

namespace Lowering

/-- A node that does one thing and goes on. -/
def actionBlock (a : Action) (n : Node) (next : Label) : Lowering Label := do
  let label ← newBlock (blockStem n)
  emit label (a.tagged n.id)
  emit label (Action.jump next).untagged
  return label

/-- Lowers a node as what it is. -/
def lowerKind (scope : LoweringScope) (n : Node) (next : Label) : Kind → Lowering Label
  | .place => Core.passThrough scope n next
  | .act a => actionBlock a n next
  | .counted bound => countedLoop bound scope n next
  | .forever => foreverLoop scope n next
  | .unknown => do
    warn (.unknownType n.id n.type)
    return next

variable (σ : Type) [HasSink σ]

theorem rules_standard (type : String) : (Registry.standard σ).rules type =
    (if type = "print" then some (Music.callRule [("message", .text "")])
    else if type = "set_volume" then some (Music.callRule [("level", .number 50)])
    else if type = "set_tempo" then some (Music.callRule [("bpm", .number Music.defaultTempo)])
    else if type = "wait" then some (Music.callRule [("seconds", .number 1)])
    else if type = "rest" then some (Music.callRule [("beats", .number 1)])
    else if type = "play_note" then
      some (Music.callRule [("pitch", .text "C4"), ("beats", .number 1)])
    else if type = "box" then some Core.passThrough
    else if type = "change_var" then none
    else if type = "set_var" then none
    else if type = "forever" then some foreverLoop
    else if type = "repeat" then some Core.repeatRule
    else if type = "start" then some Core.passThrough
    else none) := by
  simp only [Registry.rules, Registry.standard, Registry.block?_addPlugin, Core.plugin,
    Music.plugin, Music.callBlock, List.foldl_cons, List.foldl_nil, Registry.block?_addBlock,
    Registry.block?_empty, apply_ite (Option.bind · BlockDef.rule), Option.bind_some,
    Option.bind_none]

theorem lowerNode_standard (scope : LoweringScope) (n : Node) (next : Label) :
    lowerNode (Registry.standard σ).rules scope n next = lowerKind scope n next n.kind := by
  unfold Node.kind
  split
  case h_13 =>
    rename_i h1 h2 h3 h4 h5 h6 h7 h8 h9 h10 h11 h12
    have hvar : variableAction? n = none := by
      unfold variableAction?
      split
      · exact absurd ‹_› h3
      · exact absurd ‹_› h4
      · rfl
    simp only [lowerNode, rules_standard, if_neg h1, if_neg h2, if_neg h3, if_neg h4, if_neg h5,
      if_neg h6, if_neg h7, if_neg h8, if_neg h9, if_neg h10, if_neg h11, if_neg h12, hvar]
    rfl
  all_goals
    rename_i h
    simp only [lowerNode, rules_standard, h, String.reduceEq, ↓reduceIte, variableAction?]
    rfl

end Lowering

/-! ## The tree -/

/-- A chain of nodes, each with the outline of its body. -/
inductive Outline where
  /-- The chain ends, or it is cut at an active node. -/
  | ending (cut : Option NodeId)
  | node (n : Node) (body rest : Outline)

namespace Outline

def ofNodes (body : Node → Outline) (cut : Option NodeId) : List Node → Outline
  | [] => .ending cut
  | n :: rest => .node n (body n) (ofNodes body cut rest)

/-- Where the chain itself is cut, bodies apart. -/
def cut? : Outline → Option NodeId
  | .ending cut => cut
  | .node _ _ rest => rest.cut?

/-- Neither the chain nor a body is cut. -/
def Uncut : Outline → Prop
  | .ending cut => cut = none
  | .node _ body rest => body.Uncut ∧ rest.Uncut

/-- The outline says what the links of the graph say from a link on. -/
inductive Follows (g : Graph) : Option NodeId → Outline → Prop
  | ending : link.bind g.get? = none → Follows g link (.ending none)
  | node : g.get? n.id = some n → (n.kind.isLoop = true → Follows g n.body body) →
      Follows g n.next rest → Follows g (some n.id) (.node n body rest)

theorem cut?_ofNodes (body : Node → Outline) (cut : Option NodeId) (nodes : List Node) :
    (ofNodes body cut nodes).cut? = cut := by
  induction nodes with
  | nil => rfl
  | cons n rest ih => exact ih

theorem uncut_ofNodes {body : Node → Outline} {cut : Option NodeId} {nodes : List Node}
    (h : (ofNodes body cut nodes).Uncut) : cut = none ∧ ∀ n ∈ nodes, (body n).Uncut := by
  induction nodes with
  | nil => exact ⟨h, fun n hn => nomatch hn⟩
  | cons n rest ih =>
    obtain ⟨hcut, hrest⟩ := ih h.2
    refine ⟨hcut, fun m hm => ?_⟩
    rcases List.mem_cons.1 hm with rfl | hm
    · exact h.1
    · exact hrest m hm

end Outline

namespace Graph

/-- The outline of the chain from a link, while some nodes are active. -/
def outline (g : Graph) (active : List NodeId) (start : Option NodeId) : Outline :=
  match _h : g.chain active start with
  | ([], cut) => .ending cut
  | (n :: rest, cut) =>
    .ofNodes (fun m => if m.kind.isLoop then g.outline ((n :: rest).map Node.id ++ active) m.body
      else .ending none) cut (n :: rest)
termination_by unmarked g.ids active
decreasing_by
  exact unmarked_lt (fun i hi => List.mem_append_right _ hi) (chain_head _h).1
    (chain_head _h).2 (by simp)

/-- The outline of the body of a node of a chain. -/
def bodyOutline (g : Graph) (active : List NodeId) (n : Node) : Outline :=
  if n.kind.isLoop then g.outline active n.body else .ending none

theorem outline_eq {g : Graph} {active : List NodeId} {start cut : Option NodeId}
    {nodes : List Node} (h : g.chain active start = (nodes, cut)) :
    g.outline active start =
      .ofNodes (g.bodyOutline (nodes.map Node.id ++ active)) cut nodes := by
  rw [outline]
  split
  · rename_i h'
    rw [h] at h'
    cases h'
    rfl
  · rename_i h'
    rw [h] at h'
    cases h'
    rfl

theorem chain_cons {g : Graph} {active : List NodeId} {start cut : Option NodeId} {n : Node}
    {rest : List Node} (h : g.chain active start = (n :: rest, cut)) :
    start = some n.id ∧ g.get? n.id = some n ∧ n.id ∉ active ∧
      g.chain (n.id :: active) n.next = (rest, cut) := by
  unfold chain at h
  split at h
  · simp at h
  · split at h
    · simp at h
    · rename_i id m hget
      split at h
      · simp at h
      · rename_i hid
        simp only [Prod.mk.injEq, List.cons.injEq] at h
        obtain ⟨⟨rfl, hrest⟩, hcut⟩ := h
        obtain rfl := id_of_get? hget
        exact ⟨rfl, hget, hid, Prod.ext hrest hcut⟩

theorem chain_of_missing {g : Graph} {id : NodeId} (h : g.get? id = none)
    (active : List NodeId) : g.chain active (some id) = ([], none) := by
  rw [chain]
  split
  · rfl
  · rename_i n hn
    rw [h] at hn
    cases hn

theorem chain_of_nowhere {g : Graph} {link : Option NodeId} (h : link.bind g.get? = none)
    (active : List NodeId) : g.chain active link = ([], none) := by
  cases link with
  | none => rw [chain]
  | some id => exact chain_of_missing h active

theorem chain_of_active {g : Graph} {id : NodeId} {n : Node} {active : List NodeId}
    (h : g.get? id = some n) (hid : id ∈ active) : g.chain active (some id) = ([], some id) := by
  rw [chain]
  split
  · rename_i hn
    rw [h] at hn
    cases hn
  · rw [dif_pos hid]

theorem chain_of_node {g : Graph} {id : NodeId} {n : Node} {active : List NodeId}
    (h : g.get? id = some n) (hid : id ∉ active) :
    g.chain active (some id) =
      (n :: (g.chain (id :: active) n.next).1, (g.chain (id :: active) n.next).2) := by
  rw [chain]
  split
  · rename_i hn
    rw [h] at hn
    cases hn
  · rename_i m hm
    rw [h] at hm
    cases hm
    rw [dif_neg hid]

/-- The nodes of a chain leave fewer inactive ones to the bodies below it. -/
theorem unmarked_chain {g : Graph} {active : List NodeId} {start cut : Option NodeId} {n : Node}
    {nodes : List Node} (h : g.chain active start = (nodes, cut)) (hn : n ∈ nodes) :
    unmarked g.ids (nodes.map Node.id ++ active) < unmarked g.ids active := by
  cases nodes with
  | nil => exact nomatch hn
  | cons m rest =>
    exact unmarked_lt (fun i hi => List.mem_append_right _ hi) (chain_head h).1 (chain_head h).2
      (by simp)

theorem chain_nil {g : Graph} {active : List NodeId} {start : Option NodeId}
    (h : g.chain active start = ([], none)) : start.bind g.get? = none := by
  unfold chain at h
  split at h
  · rfl
  · split at h
    · assumption
    · split at h <;> simp at h

theorem follows_ofNodes {g : Graph} {body : Node → Outline} {nodes : List Node}
    {active : List NodeId} {start : Option NodeId} (h : g.chain active start = (nodes, none))
    (hbody : ∀ n ∈ nodes, n.kind.isLoop = true → Outline.Follows g n.body (body n)) :
    Outline.Follows g start (.ofNodes body none nodes) := by
  induction nodes generalizing active start with
  | nil => exact .ending (chain_nil h)
  | cons n rest ih =>
    obtain ⟨rfl, hget, -, hrest⟩ := chain_cons h
    exact .node hget (hbody n List.mem_cons_self)
      (ih hrest fun m hm => hbody m (List.mem_cons_of_mem _ hm))

/-- An outline without cuts follows the links of its graph. -/
theorem follows_outline {g : Graph} (active : List NodeId) (start : Option NodeId)
    (h : (g.outline active start).Uncut) : Outline.Follows g start (g.outline active start) := by
  induction hm : unmarked g.ids active using Nat.strongRecOn generalizing active start with
  | ind m ih =>
    subst hm
    rcases hchain : g.chain active start with ⟨nodes, cut⟩
    rw [outline_eq hchain] at h ⊢
    obtain ⟨rfl, hbodies⟩ := Outline.uncut_ofNodes h
    refine follows_ofNodes hchain fun n hn hloop => ?_
    have hbody := hbodies n hn
    simp only [bodyOutline, hloop, ↓reduceIte] at hbody ⊢
    exact ih _ (unmarked_chain hchain hn) _ _ hbody rfl

end Graph

end TuneBlocks
