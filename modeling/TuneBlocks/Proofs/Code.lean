import TuneBlocks.Lowering.Compile
import TuneBlocks.Proofs.Draft
import TuneBlocks.Proofs.Outline

/-!
# The code of an outline

Lowering a chain with the standard blocks appends blocks to the draft and leaves those that are
there alone. Which blocks these are depends on the outline of the chain, on how many labels have
been given out and on the label where the chain is left, and on nothing else: `Outline.code` lists
them in the order of the draft, `Outline.entry` is the first label of the chain and
`Outline.warnings` are the warnings raised (`lowerChain_builds`, `compileThread_entries`).
-/

namespace TuneBlocks

open Draft (label)

/-- How many labels a node takes, its body apart. -/
def Kind.width : Kind → Nat
  | .place | .act _ | .forever => 1
  | .counted _ => 3
  | .unknown => 0

namespace Node

/-- The first label of a node that is followed by `next`, when `a` labels have been given out. -/
def entry (n : Node) (a : Nat) (next : Label) : Label :=
  match n.kind with
  | .place | .act _ => label (Lowering.blockStem n) (a + 1)
  | .counted _ => label ("loop_init_" ++ n.id) (a + 1)
  | .forever => label ("forever_header_" ++ n.id) (a + 1)
  | .unknown => next

/-- Where the body of a loop is left. -/
def bodyExit (n : Node) (a : Nat) (next : Label) : Label :=
  match n.kind with
  | .counted _ => label ("loop_increment_" ++ n.id) (a + 3)
  | .forever => label ("forever_header_" ++ n.id) (a + 1)
  | _ => next

/-- The blocks of a node that is followed by `next` and whose body is entered at `body`. -/
def blocks (n : Node) (a : Nat) (next body : Label) : List BasicBlock :=
  match n.kind with
  | .place => [⟨label (Lowering.blockStem n) (a + 1), [(Action.jump next).tagged n.id]⟩]
  | .act x =>
    [⟨label (Lowering.blockStem n) (a + 1), [x.tagged n.id, (Action.jump next).untagged]⟩]
  | .counted bound =>
    let counter := Lowering.counterName n.id
    let cond := label ("loop_cond_" ++ n.id) (a + 2)
    [⟨label ("loop_init_" ++ n.id) (a + 1),
        [(Action.declare counter (.literal (.number 0))).tagged n.id,
          (Action.jump cond).tagged n.id]⟩,
      ⟨cond, [(Action.branch .lt counter bound body next).tagged n.id]⟩,
      ⟨label ("loop_increment_" ++ n.id) (a + 3),
        [(Action.add counter (.literal (.number 1))).tagged n.id, (Action.jump cond).untagged]⟩]
  | .forever => [⟨label ("forever_header_" ++ n.id) (a + 1), [(Action.jump body).tagged n.id]⟩]
  | .unknown => []

/-- The warnings that a node raises. -/
def warnings (n : Node) : List Warning :=
  match n.kind with
  | .unknown => [.unknownType n.id n.type]
  | _ => []

end Node

namespace Outline

/-- How many labels the chain takes, with all that is below it. -/
def size : Outline → Nat
  | .ending _ => 0
  | .node n body rest => rest.size + (n.kind.width + body.size)

/-- The first label of the chain that is left at `exit`, when `a` labels have been given out. -/
def entry : Outline → (a : Nat) → (exit : Label) → Label
  | .ending _, _, exit => exit
  | .node n _ rest, a, exit => n.entry (a + rest.size) (rest.entry a exit)

/-- The blocks of the chain: those of what follows a node come before its own, and those of its body
after them. -/
def code : Outline → (a : Nat) → (exit : Label) → List BasicBlock
  | .ending _, _, _ => []
  | .node n body rest, a, exit =>
    let own := a + rest.size
    let next := rest.entry a exit
    rest.code a exit ++
      (n.blocks own next (body.entry (own + n.kind.width) (n.bodyExit own next)) ++
        body.code (own + n.kind.width) (n.bodyExit own next))

/-- The warning of a cut. -/
def cutWarnings (cut : Option NodeId) : List Warning := cut.toList.map .cyclicChain

/-- The warnings raised after that of the cut of the chain itself. -/
def nodeWarnings : Outline → List Warning
  | .ending _ => []
  | .node n body rest =>
    rest.nodeWarnings ++ ((cutWarnings body.cut? ++ body.nodeWarnings) ++ n.warnings)

/-- The warnings of the chain with all that is below it. -/
def warnings (o : Outline) : List Warning := cutWarnings o.cut? ++ o.nodeWarnings

theorem mem_warnings_node {n : Node} {body rest : Outline} {w : Warning} :
    w ∈ (node n body rest).warnings ↔
      w ∈ rest.warnings ∨ w ∈ body.warnings ∨ w ∈ n.warnings := by
  simp only [warnings, nodeWarnings, cut?, List.mem_append, or_assoc]

end Outline

namespace Lowering

/-- Run on the draft `d`, the computation gives `entry` and adds to the draft what is said. -/
def Builds (x : Lowering Label) (d : Draft) (entry : Label) (count : Nat)
    (code : List BasicBlock) (ws : List Warning) : Prop :=
  (x d).1 = entry ∧ d.Grows count code ws (x d).2

/-- The computation adds the code of an outline. -/
def BuildsOutline (x : Label → Lowering Label) (o : Outline) : Prop :=
  ∀ exit d, d.Fresh →
    Builds (x exit) d (o.entry d.allocated exit) o.size (o.code d.allocated exit) o.warnings

theorem passThrough_builds {d : Draft} (hd : d.Fresh) (scope : LoweringScope) (n : Node)
    (next : Label) :
    Builds (Core.passThrough scope n next) d (label (blockStem n) (d.allocated + 1)) 1
      [⟨label (blockStem n) (d.allocated + 1), [(Action.jump next).tagged n.id]⟩] [] := by
  have h := Draft.Grows.newBlock hd (blockStem n)
  have h := Draft.Grows.emit [] [] ((Action.jump next).tagged n.id) h
  exact ⟨rfl, h⟩

theorem actionBlock_builds {d : Draft} (hd : d.Fresh) (a : Action) (n : Node) (next : Label) :
    Builds (actionBlock a n next) d (label (blockStem n) (d.allocated + 1)) 1
      [⟨label (blockStem n) (d.allocated + 1),
        [a.tagged n.id, (Action.jump next).untagged]⟩] [] := by
  have h := Draft.Grows.newBlock hd (blockStem n)
  have h := Draft.Grows.emit [] [] (a.tagged n.id) h
  have h := Draft.Grows.emit [] [] (Action.jump next).untagged h
  exact ⟨rfl, h⟩

/-- The three blocks of a counted loop are there before its body is lowered. The blocks of the
counter's start and test are filled only afterwards, when the body has blocks behind them. -/
theorem countedLoop_builds {d : Draft} (hd : d.Fresh) {scope : LoweringScope} {n : Node}
    {body : Outline} (hbody : BuildsOutline (scope.lowerChain n.body) body) (bound : Operand)
    (hkind : n.kind = .counted bound) (next : Label) :
    Builds (countedLoop bound scope n next) d (n.entry d.allocated next) (3 + body.size)
      (n.blocks d.allocated next (body.entry (d.allocated + 3) (n.bodyExit d.allocated next)) ++
        body.code (d.allocated + 3) (n.bodyExit d.allocated next)) body.warnings := by
  simp only [Node.entry, Node.bodyExit, Node.blocks, hkind]
  have h1 := Draft.Grows.newBlock hd ("loop_init_" ++ n.id)
  have h2 := h1.trans (Draft.Grows.newBlock (h1.fresh hd) ("loop_cond_" ++ n.id))
  have h3 := h2.trans (Draft.Grows.newBlock (h2.fresh hd) ("loop_increment_" ++ n.id))
  have h4 := Draft.Grows.emit [_, _] []
    ((Action.add (counterName n.id) (.literal (.number 1))).tagged n.id) h3
  have h5 := Draft.Grows.emit [_, _] []
    (Action.jump (label ("loop_cond_" ++ n.id) (d.allocated + 2))).untagged h4
  obtain ⟨hentry, h6⟩ := hbody (label ("loop_increment_" ++ n.id) (d.allocated + 3)) _ (h5.fresh hd)
  change _ = body.entry (d.allocated + 3) _ at hentry
  refine ⟨rfl, ?_⟩
  rw [← hentry]
  have h7 := h5.trans h6
  exact Draft.Grows.emit [] (_ :: _ :: _) _ <| Draft.Grows.emit [] (_ :: _ :: _) _ <|
    Draft.Grows.emit [_] (_ :: _) _ h7

theorem foreverLoop_builds {d : Draft} (hd : d.Fresh) {scope : LoweringScope} {n : Node}
    {body : Outline} (hbody : BuildsOutline (scope.lowerChain n.body) body)
    (hkind : n.kind = .forever) (next : Label) :
    Builds (foreverLoop scope n next) d (n.entry d.allocated next) (1 + body.size)
      (n.blocks d.allocated next (body.entry (d.allocated + 1) (n.bodyExit d.allocated next)) ++
        body.code (d.allocated + 1) (n.bodyExit d.allocated next)) body.warnings := by
  simp only [Node.entry, Node.bodyExit, Node.blocks, hkind]
  have h1 := Draft.Grows.newBlock hd ("forever_header_" ++ n.id)
  obtain ⟨hentry, h2⟩ := hbody (label ("forever_header_" ++ n.id) (d.allocated + 1)) _ (h1.fresh hd)
  change _ = body.entry (d.allocated + 1) _ at hentry
  refine ⟨rfl, ?_⟩
  rw [← hentry]
  have h3 := h1.trans h2
  exact Draft.Grows.emit [] _ _ h3

theorem lowerKind_builds {d : Draft} (hd : d.Fresh) {scope : LoweringScope} {n : Node}
    {body : Outline} (hloop : n.kind.isLoop = true → BuildsOutline (scope.lowerChain n.body) body)
    (hplain : n.kind.isLoop = false → body = .ending none) (next : Label) :
    Builds (lowerKind scope n next n.kind) d (n.entry d.allocated next)
      (n.kind.width + body.size)
      (n.blocks d.allocated next
          (body.entry (d.allocated + n.kind.width) (n.bodyExit d.allocated next)) ++
        body.code (d.allocated + n.kind.width) (n.bodyExit d.allocated next))
      (body.warnings ++ n.warnings) := by
  cases hkind : n.kind with
  | place =>
    obtain rfl := hplain (by rw [hkind]; rfl)
    simp only [Node.entry, Node.blocks, Node.warnings, hkind]
    exact passThrough_builds hd scope n next
  | act a =>
    obtain rfl := hplain (by rw [hkind]; rfl)
    simp only [Node.entry, Node.blocks, Node.warnings, hkind]
    exact actionBlock_builds hd a n next
  | counted bound =>
    have h := countedLoop_builds hd (hloop (by rw [hkind]; rfl)) bound hkind next
    simp only [Node.warnings, hkind, List.append_nil]
    exact h
  | forever =>
    have h := foreverLoop_builds hd (hloop (by rw [hkind]; rfl)) hkind next
    simp only [Node.warnings, hkind, List.append_nil]
    exact h
  | unknown =>
    obtain rfl := hplain (by rw [hkind]; rfl)
    simp only [Node.entry, Node.blocks, Node.warnings, hkind]
    exact ⟨rfl, Draft.Grows.warn _⟩

/-- A row of nodes is lowered from its end: the draft first gets the code of what follows. -/
theorem lowerNodes_builds {scope : LoweringScope} {lower : Node → Label → Lowering Label}
    (hlower : ∀ n next, lower n next = lowerKind scope n next n.kind) (body : Node → Outline)
    (cut : Option NodeId) (nodes : List Node)
    (hloop : ∀ n ∈ nodes, n.kind.isLoop = true → BuildsOutline (scope.lowerChain n.body) (body n))
    (hplain : ∀ n ∈ nodes, n.kind.isLoop = false → body n = .ending none)
    (exit : Label) {d : Draft} (hd : d.Fresh) :
    Builds (lowerNodes lower exit nodes) d
      ((Outline.ofNodes body cut nodes).entry d.allocated exit)
      (Outline.ofNodes body cut nodes).size
      ((Outline.ofNodes body cut nodes).code d.allocated exit)
      (Outline.ofNodes body cut nodes).nodeWarnings := by
  induction nodes with
  | nil => exact ⟨rfl, .refl d⟩
  | cons n rest ih =>
    obtain ⟨hnext, hrest⟩ := ih (fun m hm => hloop m (List.mem_cons_of_mem _ hm))
      (fun m hm => hplain m (List.mem_cons_of_mem _ hm))
    have hrun : lowerNodes lower exit (n :: rest) d =
        lowerKind scope n ((Outline.ofNodes body cut rest).entry d.allocated exit) n.kind
          (lowerNodes lower exit rest d).2 := by
      rw [← hnext, ← hlower]
      rfl
    obtain ⟨hentry, hgrows⟩ := lowerKind_builds (hrest.fresh hd) (hloop n List.mem_cons_self)
      (hplain n List.mem_cons_self) ((Outline.ofNodes body cut rest).entry d.allocated exit)
    rw [hrest.allocated] at hentry hgrows
    unfold Builds
    rw [hrun]
    exact ⟨hentry, hrest.trans hgrows⟩

theorem warnCut_grows (cut : Option NodeId) (d : Draft) :
    d.Grows 0 [] (Outline.cutWarnings cut) (warnCut cut d).2 := by
  cases cut with
  | none => exact .refl d
  | some id => exact .warn _

variable (σ : Type) [HasSink σ]

theorem lowerChain_eq (rules : LoweringRules) {g : Graph} {active : List NodeId}
    {start cut : Option NodeId} {nodes : List Node} (exit : Label)
    (h : g.chain active start = (nodes, cut)) :
    lowerChain rules g active start exit = (do
      warnCut cut
      lowerNodes (lowerNode rules ⟨g, lowerChain rules g (nodes.map Node.id ++ active)⟩) exit
        nodes) := by
  cases nodes with
  | nil => exact lowerChain_of_chain_nil exit h
  | cons n rest => exact lowerChain_of_chain_cons exit h

/-- **Lowering a chain adds the code of its outline.** -/
theorem lowerChain_builds (g : Graph) (active : List NodeId) (start : Option NodeId) :
    BuildsOutline (lowerChain (Registry.standard σ).rules g active start)
      (g.outline active start) := by
  induction hm : unmarked g.ids active using Nat.strongRecOn generalizing active start with
  | ind m ih =>
    subst hm
    rcases hchain : g.chain active start with ⟨nodes, cut⟩
    intro exit d hd
    have hcut := warnCut_grows cut d
    have hnodes := lowerNodes_builds (lowerNode_standard σ
        ⟨g, lowerChain (Registry.standard σ).rules g (nodes.map Node.id ++ active)⟩)
      (g.bodyOutline (nodes.map Node.id ++ active)) cut nodes
      (fun n hn hloop => by
        rw [Graph.bodyOutline, if_pos hloop]
        exact ih _ (Graph.unmarked_chain hchain hn) _ _ rfl)
      (fun n _ hplain => by rw [Graph.bodyOutline, hplain]; rfl) exit (hcut.fresh hd)
    rw [hcut.allocated, ← Graph.outline_eq hchain] at hnodes
    obtain ⟨hentry, hgrows⟩ := hnodes
    have hall := hcut.trans hgrows
    have hcut? : (g.outline active start).cut? = cut := by
      rw [Graph.outline_eq hchain, Outline.cut?_ofNodes]
    unfold Builds
    rw [lowerChain_eq _ exit hchain, Outline.warnings, hcut?]
    rw [Nat.zero_add] at hall
    exact ⟨hentry, hall⟩

/-! ## Threads -/

/-- The label of the block where a thread ends, the first to be given out. -/
def threadEnd : Label := label "thread_end" 1

theorem threadEnd_eq : threadEnd = "thread_end_1" := by decide

/-- The outline of the thread that starts at a node. -/
def threadOutline (g : Graph) (start : NodeId) : Outline := g.outline [] (some start)

theorem lowerThread_builds (g : Graph) (start : NodeId) :
    Builds (lowerThread (Registry.standard σ).rules g start) .empty
      ((threadOutline g start).entry 1 threadEnd) (1 + (threadOutline g start).size)
      (⟨threadEnd, []⟩ :: (threadOutline g start).code 1 threadEnd)
      (threadOutline g start).warnings := by
  have hend := Draft.Grows.newBlock Draft.fresh_empty "thread_end"
  obtain ⟨hentry, hgrows⟩ := lowerChain_builds σ g [] (some start) threadEnd _
    (hend.fresh Draft.fresh_empty)
  exact ⟨hentry, hend.trans hgrows⟩

/-- The routine of a thread: its blocks are the one where it ends and the code of its outline. -/
theorem compileThread_entries (g : Graph) (start : NodeId) :
    (compileThread (Registry.standard σ).rules g start).1.blocks.entries =
      Draft.entriesOf (⟨threadEnd, []⟩ :: (threadOutline g start).code 1 threadEnd) := by
  have h := (lowerThread_builds σ g start).2.entries
  exact h

theorem compileThread_entry (g : Graph) (start : NodeId) :
    (compileThread (Registry.standard σ).rules g start).1.entry =
      (threadOutline g start).entry 1 threadEnd :=
  (lowerThread_builds σ g start).1

theorem compileThread_warnings (g : Graph) (start : NodeId) :
    (compileThread (Registry.standard σ).rules g start).2 = (threadOutline g start).warnings := by
  have h := (lowerThread_builds σ g start).2.warnings
  exact h

end Lowering

end TuneBlocks
