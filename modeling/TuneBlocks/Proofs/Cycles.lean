import Mathlib.Data.Set.Finite.Lattice
import Mathlib.Logic.Relation
import TuneBlocks.Proofs.Meaning
import TuneBlocks.Proofs.Modularity

/-!
# Cycles of links

Lowering follows the link of every node to the next one and that of every loop to its body. It cuts
a chain where it meets a node that is active, and each cut is a warning. Where there is no warning
the outline of a thread follows all links of the graph, and an outline is a finite tree: so the
links close no cycle (`not_cyclic_of_follows`), and the outline holds at the end of every route the
node that the links lead to (`nodeAt?_outline`).
-/

namespace TuneBlocks

/-! ## Links -/

/-- The ways on from a node. -/
inductive Way where
  | next
  | body
deriving DecidableEq

/-- The link that lowering follows on a way: only loops have a body. -/
def Node.link (n : Node) : Way → Option NodeId
  | .next => n.next
  | .body => if n.type = "repeat" ∨ n.type = "forever" then n.body else none

theorem Node.isLoop_kind_iff (n : Node) :
    n.kind.isLoop = true ↔ n.type = "repeat" ∨ n.type = "forever" := by
  constructor
  · intro h
    unfold kind at h
    split at h <;> first | exact .inl ‹_› | exact .inr ‹_› | cases h
  · rintro (h | h) <;> rw [kind, h] <;> rfl

theorem Node.link_body (n : Node) : n.link .body = if n.kind.isLoop then n.body else none := by
  rw [link]
  exact if_congr n.isLoop_kind_iff.symm rfl rfl

namespace Graph

/-- A link that lowering follows from one id to another. -/
def Leads (g : Graph) (a b : NodeId) : Prop :=
  ∃ n way, g.get? a = some n ∧ n.link way = some b

/-- An id that links lead to, and from which they lead back to it. -/
def OnCycle (g : Graph) (start a : NodeId) : Prop :=
  Relation.ReflTransGen g.Leads start a ∧ Relation.TransGen g.Leads a a

/-- The links that lowering follows from an id on close a cycle. -/
def Cyclic (g : Graph) (start : NodeId) : Prop := ∃ a, g.OnCycle start a

/-- The node at the end of a route from a link. -/
def nodeAt? (g : Graph) : Option NodeId → List Way → Option Node
  | link, [] => link.bind g.get?
  | link, way :: route => (link.bind g.get?).bind fun n => g.nodeAt? (n.link way) route

end Graph

namespace Outline

/-- The node at the end of a route through an outline. -/
def nodeAt? : Outline → List Way → Option Node
  | .ending _, _ => none
  | .node n _ _, [] => some n
  | .node _ _ rest, .next :: route => rest.nodeAt? route
  | .node _ body _, .body :: route => body.nodeAt? route

theorem finite_routes (o : Outline) : {route | (o.nodeAt? route).isSome}.Finite := by
  induction o with
  | ending => exact Set.finite_empty.subset fun route h => nomatch h
  | node n body rest hbody hrest =>
    have hall := (Set.finite_singleton []).union
      ((hrest.image (Way.next :: ·)).union (hbody.image (Way.body :: ·)))
    refine hall.subset fun route h => ?_
    match route with
    | [] => exact .inl rfl
    | .next :: route => exact .inr (.inl ⟨route, h, rfl⟩)
    | .body :: route => exact .inr (.inr ⟨route, h, rfl⟩)

/-- The nodes in the order in which they are lowered: what follows a node comes before it, and so
does its body. -/
def nodes : Outline → List Node
  | .ending _ => []
  | .node n body rest => rest.nodes ++ (body.nodes ++ [n])

theorem mem_nodes_ofNodes {body : Node → Outline} {cut : Option NodeId} {chain : List Node}
    {m : Node} (h : m ∈ (ofNodes body cut chain).nodes) :
    m ∈ chain ∨ ∃ n ∈ chain, m ∈ (body n).nodes := by
  induction chain with
  | nil => cases h
  | cons n rest ih =>
    simp only [ofNodes, nodes, List.mem_append, List.mem_singleton] at h
    rcases h with h | h | rfl
    · rcases ih h with h | ⟨n', hn', h⟩
      · exact .inl (List.mem_cons_of_mem _ h)
      · exact .inr ⟨n', List.mem_cons_of_mem _ hn', h⟩
    · exact .inr ⟨n, List.mem_cons_self, h⟩
    · exact .inl List.mem_cons_self

end Outline

namespace Graph

variable {g : Graph}

theorem nodeAt?_of_nowhere {link : Option NodeId} (h : link.bind g.get? = none)
    (route : List Way) : g.nodeAt? link route = none := by
  cases route with
  | nil => exact h
  | cons way route => rw [nodeAt?, h, Option.bind_none]

theorem nodeAt?_cons {n : Node} (h : g.get? n.id = some n) (way : Way) (route : List Way) :
    g.nodeAt? (some n.id) (way :: route) = g.nodeAt? (n.link way) route := by
  rw [nodeAt?, Option.bind_some, h, Option.bind_some]

theorem nodeAt?_ofNodes {body : Node → Outline} {nodes : List Node} {active : List NodeId}
    {start : Option NodeId} (h : g.chain active start = (nodes, none))
    (hbody : ∀ n ∈ nodes, ∀ route, (body n).nodeAt? route = g.nodeAt? (n.link .body) route)
    (route : List Way) :
    (Outline.ofNodes body none nodes).nodeAt? route = g.nodeAt? start route := by
  induction nodes generalizing active start route with
  | nil => exact (nodeAt?_of_nowhere (chain_nil h) route).symm
  | cons n rest ih =>
    obtain ⟨rfl, hget, -, hrest⟩ := chain_cons h
    match route with
    | [] => exact hget.symm
    | .next :: route =>
      rw [nodeAt?_cons hget]
      exact ih hrest (fun m hm => hbody m (List.mem_cons_of_mem _ hm)) route
    | .body :: route =>
      rw [nodeAt?_cons hget]
      exact hbody n List.mem_cons_self route

theorem bodyOutline_eq (active : List NodeId) (n : Node) :
    g.bodyOutline active n = g.outline active (n.link .body) := by
  rw [bodyOutline, Node.link_body]
  split
  · rfl
  · rw [@outline_eq g active none none [] (chain_of_nowhere rfl active)]
    rfl

/-- An outline without cuts has at the end of each route the node that the links lead to. -/
theorem nodeAt?_outline (active : List NodeId) (start : Option NodeId)
    (h : (g.outline active start).Uncut) (route : List Way) :
    (g.outline active start).nodeAt? route = g.nodeAt? start route := by
  induction hm : unmarked g.ids active using Nat.strongRecOn generalizing active start route with
  | ind m ih =>
    subst hm
    rcases hchain : g.chain active start with ⟨nodes, cut⟩
    rw [outline_eq hchain] at h ⊢
    obtain ⟨rfl, hbodies⟩ := Outline.uncut_ofNodes h
    refine nodeAt?_ofNodes hchain (fun n hn route => ?_) route
    have hbody := hbodies n hn
    rw [bodyOutline_eq] at hbody ⊢
    exact ih _ (unmarked_chain hchain hn) _ _ hbody _ rfl

/-- A finite outline leaves no room for endless walks along the links. -/
theorem acc_of_follows {link : Option NodeId} {o : Outline} (h : Outline.Follows g link o) :
    ∀ id ∈ link, Acc (fun b a => g.Leads a b) id := by
  induction h with
  | ending hlink =>
    rintro id rfl
    refine ⟨_, fun b => ?_⟩
    rintro ⟨n, way, hget, -⟩
    exact absurd (hget.symm.trans hlink) (Option.some_ne_none n)
  | @node n body rest hget _ _ ihbody ihrest =>
    rintro id hid
    cases hid
    refine ⟨_, fun b => ?_⟩
    rintro ⟨m, way, hm, hb⟩
    cases hget.symm.trans hm
    cases way with
    | next => exact ihrest b hb
    | body =>
      rw [Node.link_body] at hb
      split at hb
      · rename_i hloop
        exact ihbody hloop b hb
      · cases hb

theorem not_transGen_of_acc {r : NodeId → NodeId → Prop} {a : NodeId}
    (h : Acc (fun b a => r a b) a) : ¬ Relation.TransGen r a a := by
  induction h with
  | intro a _ ih =>
    intro hcycle
    obtain ⟨b, hab, hba⟩ := Relation.TransGen.head'_iff.1 hcycle
    exact ih b hab (Relation.TransGen.tail' hba hab)

theorem not_cyclic_of_follows {start : NodeId} {o : Outline}
    (h : Outline.Follows g (some start) o) : ¬ g.Cyclic start := by
  rintro ⟨a, hreach, hcycle⟩
  have hacc : ∀ {b}, Relation.ReflTransGen g.Leads start b → Acc (fun b a => g.Leads a b) b := by
    intro b hb
    induction hb with
    | refl => exact acc_of_follows h start rfl
    | tail _ hlead ih => exact ih.inv hlead
  exact not_transGen_of_acc (hacc hreach) hcycle

end Graph

/-! ## Threads -/

/-- Every node of an outline has its blocks in the code of the outline. -/
theorem Outline.exists_blocks_subset {o : Outline} {route : List Way} {n : Node}
    (h : o.nodeAt? route = some n) (a : Nat) (exit : Label) :
    ∃ own next body, n.blocks own next body ⊆ o.code a exit := by
  induction o generalizing route a exit with
  | ending => cases h
  | node m body rest hbody hrest =>
    match route with
    | [] =>
      cases h
      exact ⟨_, _, _, fun b hb => List.mem_append_right _ (List.mem_append_left _ hb)⟩
    | .next :: route =>
      obtain ⟨own, next, entry, hsub⟩ := hrest h a exit
      exact ⟨own, next, entry, fun b hb => List.mem_append_left _ (hsub hb)⟩
    | .body :: route =>
      obtain ⟨own, next, entry, hsub⟩ := hbody h (a + rest.size + m.kind.width)
        (m.bodyExit (a + rest.size) (rest.entry a exit))
      exact ⟨own, next, entry,
        fun b hb => List.mem_append_right _ (List.mem_append_right _ (hsub hb))⟩

namespace Lowering

/-- The routine is the code of an outline that has, at the end of every route from the start node,
the node that the links lead to. -/
structure LoweredWhole (g : Graph) (start : NodeId) (o : Outline) (r : Routine) : Prop where
  nodeAt? : ∀ route, o.nodeAt? route = g.nodeAt? (some start) route
  entry : r.entry = o.entry 1 threadEnd
  blocks : r.blocks.entries = Draft.entriesOf (⟨threadEnd, []⟩ :: o.code 1 threadEnd)

theorem LoweredWhole.finite_routes {g : Graph} {start : NodeId} {o : Outline} {r : Routine}
    (h : LoweredWhole g start o r) : {route | (g.nodeAt? (some start) route).isSome}.Finite := by
  simp only [← h.nodeAt?]
  exact o.finite_routes

theorem LoweredWhole.exists_blocks {g : Graph} {start : NodeId} {o : Outline} {r : Routine}
    (h : LoweredWhole g start o r) {route : List Way} {n : Node}
    (hn : g.nodeAt? (some start) route = some n) :
    ∃ own next body, ∀ b ∈ n.blocks own next body, r.block? b.label = some b := by
  rw [← h.nodeAt?] at hn
  obtain ⟨own, next, body, hsub⟩ := Outline.exists_blocks_subset hn 1 threadEnd
  refine ⟨own, next, body, fun b hb => ?_⟩
  apply Keyed.get?_eq_some_iff.2
  rw [h.blocks]
  exact List.mem_map.2 ⟨b, List.mem_cons_of_mem _ (hsub hb), rfl⟩

variable (σ : Type) [HasSink σ]

theorem uncut_of_no_cut {g : Graph} {start : NodeId}
    (h : ∀ id, Warning.cyclicChain id ∉ (compileThread (Registry.standard σ).rules g start).2) :
    (threadOutline g start).Uncut := by
  apply Outline.uncut_of_warnings
  rwa [compileThread_warnings] at h

/-- A thread without warnings of cuts is lowered whole. -/
theorem loweredWhole_of_warnings {g : Graph} {start : NodeId}
    (h : ∀ id, Warning.cyclicChain id ∉ (compileThread (Registry.standard σ).rules g start).2) :
    LoweredWhole g start (threadOutline g start)
      (compileThread (Registry.standard σ).rules g start).1 where
  nodeAt? := Graph.nodeAt?_outline [] (some start) (uncut_of_no_cut σ h)
  entry := compileThread_entry σ g start
  blocks := compileThread_entries σ g start

/-- **No cycle is cut silently.** If the links that lowering follows from a start node close a
cycle, its thread gets the warning of a cut, in every compilation that it is part of. A thread
without such a warning has finitely many routes from its start node, and each node at the end of one
has its blocks in the routine, which is the code of the tree of all routes. -/
theorem cycles_reported (g : Graph) (start : NodeId) :
    let rules := (Registry.standard σ).rules
    let thread := compileThread rules g start
    (g.Cyclic start → ∃ id, .cyclicChain id ∈ thread.2 ∧
      ∀ starts : List Node, start ∈ starts.map Node.id →
        .cyclicChain id ∈ (compile rules g starts).warnings) ∧
    ((∀ id, .cyclicChain id ∉ thread.2) →
      {route | (g.nodeAt? (some start) route).isSome}.Finite ∧
      (∃ o, LoweredWhole g start o thread.1) ∧
      ∀ route n, g.nodeAt? (some start) route = some n →
        ∃ own next body, ∀ b ∈ n.blocks own next body, thread.1.block? b.label = some b) := by
  intro rules thread
  refine ⟨fun hcyclic => ?_, fun h => ?_⟩
  · have hsome : ∃ id, Warning.cyclicChain id ∈ thread.2 := by
      by_contra hnone
      have huncut := uncut_of_no_cut σ fun id hid => hnone ⟨id, hid⟩
      exact Graph.not_cyclic_of_follows (Graph.follows_outline _ _ huncut) hcyclic
    obtain ⟨id, hid⟩ := hsome
    refine ⟨id, hid, fun starts hstart => ?_⟩
    obtain ⟨s, hs, rfl⟩ := List.mem_map.1 hstart
    rw [warnings_compile]
    exact List.mem_flatMap.2 ⟨s, hs, hid⟩
  · have hwhole := loweredWhole_of_warnings σ h
    exact ⟨hwhole.finite_routes, ⟨_, hwhole⟩, fun route n hn => hwhole.exists_blocks hn⟩

theorem cycles_reported_entangled :
    let rules := (Registry.standard Sink).rules
    entangled.Cyclic "s" ∧
      (∃ id, .cyclicChain id ∈ (compileThread rules entangled "s").2) ∧
      (∀ id, .cyclicChain id ∉ (compileThread rules playTwice "s").2) ∧
      {route | (playTwice.nodeAt? (some "s") route).isSome}.Finite := by
  intro rules
  have hcyclic : entangled.Cyclic "s" := by
    refine ⟨"outer", .single ⟨_, .next, rfl, rfl⟩, ?_⟩
    exact .head ⟨_, .body, rfl, rfl⟩ (.single ⟨_, .body, rfl, rfl⟩)
  have hwarnings : (compileThread rules playTwice "s").2 = [.unknownType "odd" "whistle"] := by
    decide +kernel
  have hnone : ∀ id, .cyclicChain id ∉ (compileThread rules playTwice "s").2 := by
    rw [hwarnings]
    simp
  obtain ⟨id, hid, -⟩ := (cycles_reported Sink entangled "s").1 hcyclic
  exact ⟨hcyclic, ⟨id, hid⟩, hnone, ((cycles_reported Sink playTwice "s").2 hnone).1⟩

end Lowering

end TuneBlocks
