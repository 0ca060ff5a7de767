import TuneBlocks.Proofs.EndlessLoop

/-!
# Where code comes from

Lowering a thread lowers nodes one by one, some of them in the bodies of others and some more than
once. `Lowering.calls` lists each time that a node is lowered, with the draft of that moment: a loop
lowers its body on the draft that it has opened (`lowerKind_calls`). Each call adds the blocks of
its node, and the calls in it the code of the body (`Outline.pieces`, `calls_pieces`). So every
block is owed to the node of one call (`owns_iff`). The tags of instructions name this node, its
first instruction is tagged, and an instruction without a tag is a jump (`code_tagged`).
-/

namespace TuneBlocks

open Draft (label)

/-! ## Calls -/

/-- A node that is about to be lowered. -/
structure NodeCall where
  /-- The ids that are active meanwhile. -/
  active : List NodeId
  node : Node
  /-- Where control goes after the node. -/
  next : Label
  draft : Draft

namespace Lowering

/-- What the rule of a loop writes before it lowers the body; gives the label where the body is
left. -/
def opening (n : Node) : Lowering Label :=
  match n.kind with
  | .counted _ => do
    let _ ← newBlock ("loop_init_" ++ n.id)
    let cond ← newBlock ("loop_cond_" ++ n.id)
    let increment ← newBlock ("loop_increment_" ++ n.id)
    emit increment ((Action.add (counterName n.id) (.literal (.number 1))).tagged n.id)
    emit increment (Action.jump cond).untagged
    return increment
  | _ => newBlock ("forever_header_" ++ n.id)

/-- A loop lowers one chain: its body, on what the opening has made. No other node lowers any. -/
theorem lowerKind_calls (g : Graph) (n : Node) (next : Label) (d : Draft) :
    ∃ finish : Label × Draft → Label × Draft, ∀ lowerChain,
      lowerKind ⟨g, lowerChain⟩ n next n.kind d =
        if n.kind.isLoop then finish (lowerChain n.body (opening n d).1 (opening n d).2)
        else finish (next, d) := by
  unfold opening
  cases n.kind with
  | counted bound =>
    let init := label ("loop_init_" ++ n.id) (d.allocated + 1)
    let cond := label ("loop_cond_" ++ n.id) (d.allocated + 2)
    exact ⟨fun body => (do
      emit cond ((Action.branch .lt (counterName n.id) bound body.1 next).tagged n.id)
      emit init ((Action.declare (counterName n.id) (.literal (.number 0))).tagged n.id)
      emit init ((Action.jump cond).tagged n.id)
      return init) body.2, fun _ => rfl⟩
  | forever =>
    let header := label ("forever_header_" ++ n.id) (d.allocated + 1)
    exact ⟨fun body => (do
      emit header ((Action.jump body.1).tagged n.id)
      return header) body.2, fun _ => rfl⟩
  | place =>
    exact ⟨fun given => Core.passThrough ⟨g, fun _ => pure⟩ n given.1 given.2, fun _ => rfl⟩
  | act a => exact ⟨fun given => actionBlock a n given.1 given.2, fun _ => rfl⟩
  | unknown =>
    exact ⟨fun given => (do
      warn (.unknownType n.id n.type)
      return given.1) given.2, fun _ => rfl⟩

variable (rules : LoweringRules) (g : Graph)

/-- The calls for the nodes of a row, in the order in which they return. -/
def callsOfNodes (lower : Node → Label → Lowering Label) (active : List NodeId)
    (below : Node → Draft → List NodeCall) (exit : Label) (d : Draft) : List Node → List NodeCall
  | [] => []
  | n :: rest =>
    let (next, d') := lowerNodes lower exit rest d
    callsOfNodes lower active below exit d rest ++ (below n d' ++ [⟨active, n, next, d'⟩])

/-- The calls that are made while the chain from a link is lowered, in the order in which they
return. -/
def calls (active : List NodeId) (start : Option NodeId) (exit : Label) (d : Draft) :
    List NodeCall :=
  match _h : g.chain active start with
  | ([], _) => []
  | (n :: rest, cut) =>
    let inner := (n :: rest).map Node.id ++ active
    callsOfNodes (lowerNode rules ⟨g, lowerChain rules g inner⟩) inner
      (fun m d => if m.kind.isLoop then calls inner m.body (opening m d).1 (opening m d).2 else [])
      exit (warnCut cut d).2 (n :: rest)
termination_by unmarked g.ids active
decreasing_by
  exact unmarked_lt (fun i hi => List.mem_append_right _ hi) (Graph.chain_head _h).1
    (Graph.chain_head _h).2 (by simp)

/-- The calls that are made while a node is lowered on a draft: those of the body of a loop. -/
def callsBelow (active : List NodeId) (n : Node) (d : Draft) : List NodeCall :=
  if n.kind.isLoop then calls rules g active n.body (opening n d).1 (opening n d).2 else []

theorem calls_eq {g : Graph} {active : List NodeId} {start cut : Option NodeId}
    {nodes : List Node} (exit : Label) (d : Draft) (h : g.chain active start = (nodes, cut)) :
    calls rules g active start exit d =
      callsOfNodes (lowerNode rules ⟨g, lowerChain rules g (nodes.map Node.id ++ active)⟩)
        (nodes.map Node.id ++ active) (callsBelow rules g (nodes.map Node.id ++ active)) exit
        (warnCut cut d).2 nodes := by
  rw [calls]
  split
  · rename_i h'
    rw [h] at h'
    cases h'
    rfl
  · rename_i h'
    rw [h] at h'
    cases h'
    rfl

/-- The calls that are made while a thread is lowered. -/
def threadCalls (start : NodeId) : List NodeCall :=
  let (exit, d) := newBlock "thread_end" .empty
  calls rules g [] (some start) exit d

end Lowering

/-! ## Pieces of code -/

/-- A node as it is lowered: after how many labels, what follows it, and the outline of its body. -/
structure Piece where
  node : Node
  own : Nat
  next : Label
  body : Outline

namespace Piece

/-- The first label of the node. -/
def entry (p : Piece) : Label := p.node.entry p.own p.next

/-- How many labels are given out when the body is lowered. -/
def below (p : Piece) : Nat := p.own + p.node.kind.width

/-- Where the body is left. -/
def bodyExit (p : Piece) : Label := p.node.bodyExit p.own p.next

/-- The blocks of the node itself. -/
def blocks (p : Piece) : List BasicBlock :=
  p.node.blocks p.own p.next (p.body.entry p.below p.bodyExit)

/-- The blocks of the node and of its body. -/
def code (p : Piece) : List BasicBlock := p.blocks ++ p.body.code p.below p.bodyExit

end Piece

namespace Outline

/-- The pieces of the chain with all that is below it, each behind those of its body. -/
def pieces : Outline → (a : Nat) → (exit : Label) → List Piece
  | .ending _, _, _ => []
  | .node n body rest, a, exit =>
    let p : Piece := ⟨n, a + rest.size, rest.entry a exit, body⟩
    rest.pieces a exit ++ (body.pieces p.below p.bodyExit ++ [p])

variable {o body rest : Outline} {n : Node} {a : Nat} {exit : Label} {p : Piece} {b : BasicBlock}

theorem map_node_pieces (o : Outline) (a : Nat) (exit : Label) :
    (o.pieces a exit).map Piece.node = o.nodes := by
  induction o generalizing a exit with
  | ending => rfl
  | node n body rest ihbody ihrest =>
    simp only [pieces, nodes, List.map_append, List.map_cons, List.map_nil, ihbody, ihrest]

/-- The code of a piece is in that of the outline. -/
theorem code_subset_of_mem (hp : p ∈ o.pieces a exit) : p.code ⊆ o.code a exit := by
  induction o generalizing a exit with
  | ending => cases hp
  | node n body rest ihbody ihrest =>
    simp only [pieces, List.mem_append, List.mem_singleton] at hp
    rcases hp with hp | hp | rfl
    · exact List.subset_append_of_subset_left _ (ihrest hp)
    · apply List.subset_append_of_subset_right
      exact List.subset_append_of_subset_right _ (ihbody hp)
    · exact List.subset_append_right _ _

/-- Every block of the code is a node's own in one of the pieces. -/
theorem exists_piece_of_mem (hb : b ∈ o.code a exit) : ∃ p ∈ o.pieces a exit, b ∈ p.blocks := by
  induction o generalizing a exit with
  | ending => cases hb
  | node n body rest ihbody ihrest =>
    simp only [code, List.mem_append] at hb
    simp only [pieces, List.mem_append]
    rcases hb with hb | hb | hb
    · obtain ⟨p, hp, hb⟩ := ihrest hb
      exact ⟨p, .inl hp, hb⟩
    · exact ⟨_, .inr (.inr (List.mem_singleton.2 rfl)), hb⟩
    · obtain ⟨p, hp, hb⟩ := ihbody hb
      exact ⟨p, .inr (.inl hp), hb⟩

end Outline

/-! ## The pieces of calls -/

/-- What a call makes of its node. -/
def NodeCall.piece (g : Graph) (c : NodeCall) : Piece :=
  ⟨c.node, c.draft.allocated, c.next, g.bodyOutline c.active c.node⟩

namespace Lowering

variable {g : Graph} {d : Draft} {exit : Label}

/-- The calls are made on drafts that have not used up labels, and they make the pieces. -/
def MakesPieces (g : Graph) (cs : List NodeCall) (pieces : List Piece) : Prop :=
  (∀ c ∈ cs, c.draft.Fresh) ∧ cs.map (NodeCall.piece g) = pieces

theorem MakesPieces.append {cs cs' : List NodeCall} {pieces pieces' : List Piece}
    (h : MakesPieces g cs pieces) (h' : MakesPieces g cs' pieces') :
    MakesPieces g (cs ++ cs') (pieces ++ pieces') :=
  ⟨List.forall_mem_append.2 ⟨h.1, h'.1⟩, by rw [List.map_append, h.2, h'.2]⟩

theorem opening_careful (n : Node) : Careful [] (opening n) := by
  unfold opening
  split
  · refine .newBlock_bind fun _ => .newBlock_bind fun cond => .newBlock_bind fun increment => ?_
    exact .emit_bind (by simp) _ <| .emit_bind (by simp) _ (.pure increment)
  · exact fun _ _ => .newBlock _ .refl

theorem opening_spec {n : Node} (hd : d.Fresh) (hloop : n.kind.isLoop = true) (next : Label) :
    (opening n d).1 = n.bodyExit d.allocated next ∧
      (opening n d).2.allocated = d.allocated + n.kind.width ∧ (opening n d).2.Fresh := by
  have hfresh := (opening_careful n d (List.nil_subset _)).fresh hd
  refine ⟨?_, ?_, hfresh⟩ <;> cases hkind : n.kind with
  | counted | forever =>
    simp only [opening, Node.bodyExit, hkind]
    rfl
  | _ =>
    rw [hkind] at hloop
    cases hloop

theorem callsOfNodes_pieces {lower : Node → Label → Lowering Label} {inner : List NodeId}
    {below : Node → Draft → List NodeCall} {cut : Option NodeId} {nodes : List Node}
    (hrow : ∀ rest, rest <:+ nodes →
      let o := Outline.ofNodes (g.bodyOutline inner) cut rest
      (lowerNodes lower exit rest d).1 = o.entry d.allocated exit ∧
        (lowerNodes lower exit rest d).2.allocated = d.allocated + o.size ∧
        (lowerNodes lower exit rest d).2.Fresh)
    (hbelow : ∀ n ∈ nodes, ∀ next (d : Draft), d.Fresh →
      let p : Piece := ⟨n, d.allocated, next, g.bodyOutline inner n⟩
      MakesPieces g (below n d) (p.body.pieces p.below p.bodyExit)) :
    MakesPieces g (callsOfNodes lower inner below exit d nodes)
      ((Outline.ofNodes (g.bodyOutline inner) cut nodes).pieces d.allocated exit) := by
  induction nodes with
  | nil => exact ⟨fun c hc => absurd hc List.not_mem_nil, rfl⟩
  | cons n rest ih =>
    obtain ⟨hn, hrest⟩ := List.forall_mem_cons.1 hbelow
    obtain ⟨hnext, hallocated, hfresh⟩ := hrow rest (List.suffix_cons n rest)
    refine .append (ih (fun rest' h => hrow rest' (h.trans (List.suffix_cons n rest))) hrest) ?_
    have hown := hn ((lowerNodes lower exit rest d).1) _ hfresh
    rw [hallocated, hnext] at hown
    refine hown.append ⟨?_, ?_⟩
    · exact List.forall_mem_singleton.2 hfresh
    · simp only [NodeCall.piece, hallocated, hnext, List.map_cons, List.map_nil]

theorem MakesPieces.callsBelow {rules : LoweringRules} {active : List NodeId} {n : Node}
    (h : ∀ exit (d : Draft), d.Fresh → MakesPieces g (calls rules g active n.body exit d)
      ((g.outline active n.body).pieces d.allocated exit)) (next : Label) (hd : d.Fresh) :
    let p : Piece := ⟨n, d.allocated, next, g.bodyOutline active n⟩
    MakesPieces g (callsBelow rules g active n d) (p.body.pieces p.below p.bodyExit) := by
  unfold Lowering.callsBelow
  split
  · rename_i hloop
    obtain ⟨hexit, hallocated, hfresh⟩ := opening_spec hd hloop next
    simp only [Piece.below, Piece.bodyExit, Graph.bodyOutline, if_pos hloop, ← hallocated, ← hexit]
    exact h _ _ hfresh
  · rename_i hplain
    simp only [Graph.bodyOutline, if_neg hplain]
    exact ⟨fun c hc => absurd hc List.not_mem_nil, rfl⟩

variable (σ : Type) [HasSink σ]

theorem lowerNodes_grows (g : Graph) (active : List NodeId) (cut : Option NodeId)
    (nodes : List Node) (exit : Label) {d : Draft} (hd : d.Fresh) :
    let rules := (Registry.standard σ).rules
    let o := Outline.ofNodes (g.bodyOutline active) cut nodes
    Builds (lowerNodes (lowerNode rules ⟨g, lowerChain rules g active⟩) exit nodes) d
      (o.entry d.allocated exit) o.size (o.code d.allocated exit) o.nodeWarnings := by
  refine lowerNodes_builds (lowerNode_standard σ _) _ cut nodes (fun n _ hloop => ?_)
    (fun n _ hplain => ?_) exit hd
  · rw [Graph.bodyOutline, if_pos hloop]
    exact lowerChain_builds σ g active n.body
  · rw [Graph.bodyOutline, hplain]
    rfl

/-- **The calls that lower a chain make the pieces of its outline.** -/
theorem calls_pieces (g : Graph) (active : List NodeId) (start : Option NodeId) (exit : Label)
    {d : Draft} (hd : d.Fresh) :
    MakesPieces g (calls (Registry.standard σ).rules g active start exit d)
      ((g.outline active start).pieces d.allocated exit) := by
  induction hm : unmarked g.ids active using Nat.strongRecOn
    generalizing active start exit d with
  | ind m ih =>
    subst hm
    rcases hchain : g.chain active start with ⟨nodes, cut⟩
    have hcut := warnCut_grows cut d
    have hallocated : (warnCut cut d).2.allocated = d.allocated := hcut.allocated
    rw [calls_eq _ exit d hchain, Graph.outline_eq hchain, ← hallocated]
    refine callsOfNodes_pieces (fun rest _ => ?_) fun n hn next d hd => ?_
    · obtain ⟨hentry, hgrows⟩ := lowerNodes_grows σ g (nodes.map Node.id ++ active) cut rest exit
        (hcut.fresh hd)
      exact ⟨hentry, hgrows.allocated, hgrows.fresh (hcut.fresh hd)⟩
    · exact .callsBelow (fun exit d hd => ih _ (Graph.unmarked_chain hchain hn) _ _ exit hd rfl)
        next hd

theorem threadCalls_pieces (g : Graph) (start : NodeId) :
    MakesPieces g (threadCalls (Registry.standard σ).rules g start)
      ((threadOutline g start).pieces 1 threadEnd) := by
  have hend := Draft.Grows.newBlock Draft.fresh_empty "thread_end"
  exact calls_pieces σ g [] (some start) threadEnd (hend.fresh Draft.fresh_empty)

end Lowering

/-! ## Blocks of calls -/

namespace NodeCall

open Lowering (callsBelow lowerNode lowerChain)

variable (rules : LoweringRules) (g : Graph)

/-- What the call returns: the first label of the node, and the draft. -/
def result (c : NodeCall) : Label × Draft :=
  lowerNode rules ⟨g, lowerChain rules g c.active⟩ c.node c.next c.draft

/-- The calls made in it. -/
def below (c : NodeCall) : List NodeCall := callsBelow rules g c.active c.node c.draft

/-- The block under the label is added in the call. -/
def Adds (c : NodeCall) (key : Label) : Prop := c.draft.Adds (c.result rules g).2 key

/-- The block under the label is added in the call, but in none of the calls made in it. -/
def Owns (c : NodeCall) (key : Label) : Prop :=
  c.Adds rules g key ∧ ∀ c' ∈ c.below rules g, ¬ c'.Adds rules g key

variable {g} {c : NodeCall} {key : Label} (σ : Type) [HasSink σ]

theorem result_builds (hc : c.draft.Fresh) :
    (c.result (Registry.standard σ).rules g).1 = (c.piece g).entry ∧
      ∃ count ws, c.draft.Grows count (c.piece g).code ws
        (c.result (Registry.standard σ).rules g).2 := by
  obtain ⟨hentry, hgrows⟩ := Lowering.lowerNode_grows σ g c.active c.node c.next hc
  exact ⟨hentry, _, _, hgrows⟩

theorem adds_iff (hc : c.draft.Fresh) :
    c.Adds (Registry.standard σ).rules g key ↔ key ∈ (c.piece g).code.map BasicBlock.label := by
  obtain ⟨-, _, _, hgrows⟩ := result_builds σ hc
  exact hgrows.adds_iff

/-- **What a call owns are the blocks of its node**: the calls in it add the code of the body. -/
theorem owns_iff (hc : c.draft.Fresh) :
    c.Owns (Registry.standard σ).rules g key ↔
      key ∈ (c.piece g).blocks.map BasicBlock.label := by
  have hbelow : Lowering.MakesPieces g (c.below (Registry.standard σ).rules g)
      ((c.piece g).body.pieces (c.piece g).below (c.piece g).bodyExit) :=
    .callsBelow (fun exit _ hd => Lowering.calls_pieces σ g _ _ exit hd) c.next hc
  have hnodup : ((c.piece g).code.map BasicBlock.label).Nodup := by
    obtain ⟨-, _, _, hgrows⟩ := result_builds σ hc
    have hkeys := (c.result (Registry.standard σ).rules g).2.blocks.keys_nodup
    rw [hgrows.keys] at hkeys
    exact hkeys.of_append_right
  rw [Piece.code, List.map_append, List.nodup_append] at hnodup
  rw [Owns, adds_iff σ hc, Piece.code, List.map_append, List.mem_append]
  constructor
  · rintro ⟨hown | hbody, hnone⟩
    · exact hown
    · obtain ⟨b, hb, rfl⟩ := List.mem_map.1 hbody
      obtain ⟨p, hp, hbp⟩ := Outline.exists_piece_of_mem hb
      rw [← hbelow.2] at hp
      obtain ⟨c', hc', rfl⟩ := List.mem_map.1 hp
      refine absurd ((adds_iff σ (hbelow.1 c' hc')).2 ?_) (hnone c' hc')
      exact List.mem_map_of_mem (List.mem_append_left _ hbp)
  · refine fun hown => ⟨.inl hown, fun c' hc' hadds => ?_⟩
    have hp : c'.piece g ∈ (c.piece g).body.pieces (c.piece g).below (c.piece g).bodyExit := by
      rw [← hbelow.2]
      exact List.mem_map_of_mem hc'
    have hbody := List.map_subset BasicBlock.label (Outline.code_subset_of_mem hp)
      ((adds_iff σ (hbelow.1 c' hc')).1 hadds)
    exact hnodup.2.2 key hown key hbody rfl

end NodeCall

/-! ## Tags -/

namespace Registry

variable {σ : Type}

theorem blockTypes_empty : (empty : Registry σ).blockTypes = [] := rfl

theorem mem_blockTypes_foldl (blocks : List (BlockDef σ)) (r : Registry σ) {type : String} :
    type ∈ (blocks.foldl addBlock r).blockTypes ↔
      type ∈ r.blockTypes ∨ type ∈ blocks.map BlockDef.type := by
  induction blocks generalizing r with
  | nil => simp
  | cons b rest ih =>
    have hkeys : type ∈ (r.addBlock b).blockTypes ↔ type ∈ r.blockTypes ∨ type = b.type := by
      rw [blockTypes, addBlock, Keyed.keys_insert]
      split
      · exact ⟨.inl, fun h => h.elim id fun h => h ▸ ‹_›⟩
      · rw [List.mem_append, List.mem_singleton]
        rfl
    rw [List.foldl_cons, ih, hkeys, List.map_cons, List.mem_cons, or_assoc]

theorem mem_blockTypes_addPlugin (r : Registry σ) (p : Plugin σ) {type : String} :
    type ∈ (r.addPlugin p).blockTypes ↔
      type ∈ r.blockTypes ∨ type ∈ p.blocks.map BlockDef.type :=
  mem_blockTypes_foldl p.blocks r

end Registry

namespace Node

theorem mem_blockTypes_iff (σ : Type) [HasSink σ] (n : Node) :
    n.type ∈ (Registry.standard σ).blockTypes ↔ n.kind ≠ .unknown := by
  have htypes : n.type ∈ (Registry.standard σ).blockTypes ↔ n.type ∈
      ["start", "repeat", "forever", "set_var", "change_var", "box", "play_note", "rest", "wait",
        "set_tempo", "set_volume", "print"] := by
    rw [Registry.standard, Registry.mem_blockTypes_addPlugin, Registry.mem_blockTypes_addPlugin,
      Registry.blockTypes_empty]
    simp [Core.plugin, Music.plugin, Music.callBlock, or_assoc]
  rw [htypes]
  unfold kind call
  split <;> simp_all

/-- The first instruction of a node is tagged with it. -/
theorem entry_tagged {n : Node} (h : n.kind ≠ .unknown) (a : Nat) (next body : Label) :
    ∃ i rest, ⟨n.entry a next, i :: rest⟩ ∈ n.blocks a next body ∧ i.source = some n.id := by
  cases hkind : n.kind with
  | unknown => exact absurd hkind h
  | _ =>
    simp only [entry, blocks, hkind]
    exact ⟨_, _, List.mem_cons_self, rfl⟩

end Node

/-- An instruction of the routine is tagged with the node. -/
def Routine.HasTag (r : Routine) (id : NodeId) : Prop :=
  ∃ key b, r.block? key = some b ∧ ∃ i ∈ b.instructions, i.source = some id

namespace Lowering

variable (σ : Type) [HasSink σ]

section
variable {g : Graph} {start : NodeId} {c : NodeCall} {key : Label} {b : BasicBlock}

/-- The blocks of a call are blocks of the routine. -/
theorem block?_of_call (hc : c ∈ threadCalls (Registry.standard σ).rules g start)
    (hb : b ∈ (c.piece g).blocks) :
    (compileThread (Registry.standard σ).rules g start).1.block? b.label = some b := by
  have hp : c.piece g ∈ (threadOutline g start).pieces 1 threadEnd := by
    rw [← (threadCalls_pieces σ g start).2]
    exact List.mem_map_of_mem hc
  have hcode := Outline.code_subset_of_mem hp (List.mem_append_left _ hb)
  exact compileThread_block?_of_mem σ (List.mem_cons_of_mem _ hcode)

/-- The blocks with instructions are blocks of calls. -/
theorem exists_call_of_block
    (hb : (compileThread (Registry.standard σ).rules g start).1.block? key = some b)
    (hne : b.instructions ≠ []) : key = b.label ∧
      ∃ c ∈ threadCalls (Registry.standard σ).rules g start, b ∈ (c.piece g).blocks := by
  obtain ⟨hkey, rfl | hcode⟩ := compileThread_block σ (Keyed.get?_eq_some_iff.1 hb)
  · exact absurd rfl hne
  · obtain ⟨p, hp, hown⟩ := Outline.exists_piece_of_mem hcode
    rw [← (threadCalls_pieces σ g start).2] at hp
    obtain ⟨c, hc, rfl⟩ := List.mem_map.1 hp
    exact ⟨hkey, c, hc, hown⟩

theorem first_tagged (hc : c ∈ threadCalls (Registry.standard σ).rules g start)
    (hknown : c.node.type ∈ (Registry.standard σ).blockTypes) : ∃ i rest,
      (compileThread (Registry.standard σ).rules g start).1.block?
          (c.result (Registry.standard σ).rules g).1 =
        some ⟨(c.result (Registry.standard σ).rules g).1, i :: rest⟩ ∧
      i.source = some c.node.id := by
  obtain ⟨i, rest, hb, hsource⟩ := Node.entry_tagged ((c.node.mem_blockTypes_iff σ).1 hknown)
    c.draft.allocated c.next _
  rw [(NodeCall.result_builds σ ((threadCalls_pieces σ g start).1 c hc)).1]
  exact ⟨i, rest, block?_of_call σ hc hb, hsource⟩

/-- A call leaves the blocks that it owns as they are in the routine, with tags of its node. -/
theorem owned_tagged (hc : c ∈ threadCalls (Registry.standard σ).rules g start)
    (howns : c.Owns (Registry.standard σ).rules g key)
    (hb : (compileThread (Registry.standard σ).rules g start).1.block? key = some b) :
    (c.result (Registry.standard σ).rules g).2.blocks.get? key = some b ∧
      ∀ i ∈ b.instructions,
        i.source = some c.node.id ∨ ∃ target, i = (Action.jump target).untagged := by
  have hfresh := (threadCalls_pieces σ g start).1 c hc
  obtain ⟨b', hb', rfl⟩ := List.mem_map.1 ((NodeCall.owns_iff σ hfresh).1 howns)
  rw [block?_of_call σ hc hb'] at hb
  cases hb
  obtain ⟨-, _, _, hgrows⟩ := NodeCall.result_builds (g := g) σ hfresh
  refine ⟨?_, fun i hi => Node.tagged_or_jump hb' hi⟩
  rw [hgrows.get?_of_mem (List.mem_append_left _ hb')]

end

/-- **Every instruction names the node it comes from, jumps apart.** Each time that a node of a
known type is lowered, the block under the label that is returned begins with an instruction for
this node. Every block with instructions is owned by a call, which leaves it as it is in the
routine; its instructions are tagged with the node of the call, but for jumps without a tag. So the
tags are the ids of the nodes of known types that are lowered. -/
theorem code_tagged (g : Graph) (starts : List Node) {name : String} {r : Routine}
    (hr : (compile (Registry.standard σ).rules g starts).program.routine? name = some r) :
    ∃ s ∈ starts, name = routineName s.id ∧
      let rules := (Registry.standard σ).rules
      let known := (Registry.standard σ).blockTypes
      let calls := threadCalls rules g s.id
      (∀ c ∈ calls, c.node.type ∈ known → ∃ i rest,
        r.block? (c.result rules g).1 = some ⟨(c.result rules g).1, i :: rest⟩ ∧
          i.source = some c.node.id) ∧
      (∀ key b, r.block? key = some b → b.instructions ≠ [] →
        (∃ c ∈ calls, c.Owns rules g key) ∧
        ∀ c ∈ calls, c.Owns rules g key → (c.result rules g).2.blocks.get? key = some b ∧
          ∀ i ∈ b.instructions,
            i.source = some c.node.id ∨ ∃ target, i = (Action.jump target).untagged) ∧
      ∀ id, r.HasTag id ↔ ∃ c ∈ calls, c.node.type ∈ known ∧ c.node.id = id := by
  obtain ⟨s, hs, rfl, rfl⟩ := (routine?_compile_iff _ g starts).1 hr
  refine ⟨s, hs, rfl, fun c => first_tagged σ, fun key b hb hne => ⟨?_, ?_⟩, fun id => ⟨?_, ?_⟩⟩
  · obtain ⟨rfl, c, hc, hown⟩ := exists_call_of_block σ hb hne
    have hfresh := (threadCalls_pieces σ g s.id).1 c hc
    exact ⟨c, hc, (NodeCall.owns_iff σ hfresh).2 (List.mem_map_of_mem hown)⟩
  · exact fun c hc howns => owned_tagged σ hc howns hb
  · rintro ⟨key, b, hb, i, hi, hsource⟩
    obtain ⟨rfl, c, hc, hown⟩ := exists_call_of_block σ hb (List.ne_nil_of_mem hi)
    refine ⟨c, hc, (c.node.mem_blockTypes_iff σ).2 fun hunknown => ?_,
      Node.source_of_mem_blocks hown hi hsource⟩
    simp only [NodeCall.piece, Piece.blocks, Node.blocks, hunknown, List.not_mem_nil] at hown
  · rintro ⟨c, hc, hknown, rfl⟩
    obtain ⟨i, rest, hb, hsource⟩ := first_tagged σ hc hknown
    exact ⟨_, _, hb, i, List.mem_cons_self, hsource⟩

/-- A loop and an endless loop with one body, and a node of an unknown type between them. -/
def ostinato : Graph :=
  ⟨[⟨"s", "start", ∅, some "twice", none⟩, ⟨"twice", "repeat", ∅, some "odd", some "riff"⟩,
      ⟨"odd", "whistle", ∅, some "ever", none⟩, ⟨"ever", "forever", ∅, none, some "riff"⟩,
      ⟨"riff", "play_note", ∅, none, none⟩], by decide⟩

theorem code_tagged_ostinato :
    let rules := (Registry.standard Sink).rules
    let calls := threadCalls rules ostinato "s"
    let r := (compileThread rules ostinato "s").1
    (compile rules ostinato ostinato.roots).program.routine? (routineName "s") = some r ∧
    calls.map (fun c => (c.node.id, (c.result rules ostinato).1)) =
      [("riff", "block_play_note_riff_3"), ("ever", "forever_header_ever_2"),
        ("odd", "forever_header_ever_2"), ("riff", "block_play_note_riff_7"),
        ("twice", "loop_init_twice_4"), ("s", "block_start_s_8")] ∧
    ∀ id, r.HasTag id ↔ id ∈ ["riff", "ever", "riff", "twice", "s"] := by
  intro rules calls r
  have hr : (compile rules ostinato ostinato.roots).program.routine? (routineName "s") = some r :=
    (routine?_compile_iff _ _ _).2 ⟨⟨"s", "start", ∅, some "twice", none⟩, by decide, rfl, rfl⟩
  have hknown : (calls.filter fun c => c.node.type ∈ (Registry.standard Sink).blockTypes).map
      (fun c => c.node.id) = ["riff", "ever", "riff", "twice", "s"] := by decide +kernel
  refine ⟨hr, by decide +kernel, fun id => ?_⟩
  obtain ⟨s, -, hname, -, -, htags⟩ := code_tagged Sink ostinato ostinato.roots hr
  have hs : s.id = "s" := (routineName_inj hname).symm
  rw [htags, hs, ← hknown]
  simp only [List.mem_map, List.mem_filter, decide_eq_true_eq, and_assoc]
  rfl

end Lowering

end TuneBlocks
