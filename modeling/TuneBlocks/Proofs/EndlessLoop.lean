import TuneBlocks.Proofs.CountedLoop
import TuneBlocks.Proofs.Cuts
import TuneBlocks.Proofs.Regions

/-!
# Endless loops

The header of an endless loop and the code of its body are a trap: a region that control never
leaves (`Outline.staysIn_forever`). In a draft this says that no path of jumps leads from the header
to the exit of the chain or to what comes behind the loop (`forever_jumps`). In a compiled thread
every header is in such a trap, however deep the loop is nested (`exists_trap`), and a thread that
has come to a trap never halts (`status_of_trap`).
-/

namespace TuneBlocks

/-! ## Jumps of drafts -/

/-- An instruction of the block under one key names the other label as a target. -/
def Draft.Jumps (d : Draft) (a b : Label) : Prop :=
  ∃ block, d.blocks.get? a = some block ∧ ∃ i ∈ block.instructions, b ∈ i.targets

/-- The block under the label is the header of an endless loop: all it does is to jump to the body,
for the node of the loop. -/
def IsHeader (blocks : Keyed BasicBlock) (n : Node) (header : Label) : Prop :=
  ∃ body, blocks.get? header = some ⟨header, [(Action.jump body).tagged n.id]⟩

/-- No path of jumps leads out of a trap. -/
theorem StaysIn.mem_of_jumps {trap : List BasicBlock} (h : StaysIn trap fun _ => False)
    {d : Draft} (hheld : ∀ b ∈ trap, d.blocks.get? b.label = some b) {a t : Label}
    (ha : a ∈ trap.map BasicBlock.label) (hpath : Relation.ReflTransGen d.Jumps a t) :
    t ∈ trap.map BasicBlock.label := by
  induction hpath with
  | refl => exact ha
  | tail _ hjump ih =>
    obtain ⟨b, hb, rfl⟩ := List.mem_map.1 ih
    obtain ⟨block, hblock, i, hi, ht⟩ := hjump
    cases (hheld b hb).symm.trans hblock
    exact ((h b hb).2.targets i hi _ ht).resolve_left id

namespace Node

theorem kind_forever {n : Node} (h : n.type = "forever") : n.kind = .forever := by
  rw [kind, h]
  rfl

theorem blocks_forever {n : Node} (h : n.kind = .forever) (a : Nat) (next body : Label) :
    n.blocks a next body = [⟨n.entry a next, [(Action.jump body).tagged n.id]⟩] := by
  simp only [blocks, entry, h]

/-- The instructions of a node's blocks are tagged with the node, jumps apart. -/
theorem tagged_or_jump {n : Node} {a : Nat} {next body : Label} {b : BasicBlock} {i : Instruction}
    (hb : b ∈ n.blocks a next body) (hi : i ∈ b.instructions) :
    i.source = some n.id ∨ ∃ target, i = (Action.jump target).untagged := by
  cases hkind : n.kind with
  | counted bound =>
    simp only [blocks, hkind, List.mem_cons, List.not_mem_nil, or_false] at hb
    rcases hb with rfl | rfl | rfl <;>
      simp only [List.mem_cons, List.not_mem_nil, or_false] at hi
    · rcases hi with rfl | rfl <;> exact .inl rfl
    · exact .inl (hi ▸ rfl)
    · rcases hi with rfl | rfl
      · exact .inl rfl
      · exact .inr ⟨_, rfl⟩
  | act x =>
    simp only [blocks, hkind, List.mem_singleton] at hb
    subst hb
    simp only [List.mem_cons, List.not_mem_nil, or_false] at hi
    rcases hi with rfl | rfl
    · exact .inl rfl
    · exact .inr ⟨_, rfl⟩
  | place | forever =>
    simp only [blocks, hkind, List.mem_singleton] at hb
    subst hb
    exact .inl (List.mem_singleton.1 hi ▸ rfl)
  | unknown => simp [blocks, hkind] at hb

theorem source_of_mem_blocks {n : Node} {a : Nat} {next body : Label} {b : BasicBlock}
    {i : Instruction} {id : NodeId} (hb : b ∈ n.blocks a next body) (hi : i ∈ b.instructions)
    (hid : i.source = some id) : n.id = id := by
  rcases tagged_or_jump hb hi with hsource | ⟨target, rfl⟩
  · exact Option.some.inj (hsource.symm.trans hid)
  · cases hid

end Node

/-! ## Loops in chains -/

namespace Lowering

section
variable {lower : Node → Label → Lowering Label} {n : Node} {exit : Label} {d : Draft}

/-- Nodes are lowered by adding code to the draft. -/
def Appends (lower : Node → Label → Lowering Label) : Prop :=
  ∀ n next (d : Draft), d.Fresh → ∃ count code ws, d.Grows count code ws (lower n next d).2

/-- The code added for the node is a trap, with the header in it. -/
def Traps (lower : Node → Label → Lowering Label) (n : Node) : Prop :=
  ∀ next (d : Draft), d.Fresh → ∃ trap : List BasicBlock, StaysIn trap (fun _ => False) ∧
    (∀ b ∈ trap, (lower n next d).2.blocks.get? b.label = some b) ∧
    (∀ t ∈ trap.map BasicBlock.label, t ∉ d.blocks.keys) ∧
    ∃ body, ⟨(lower n next d).1, [(Action.jump body).tagged n.id]⟩ ∈ trap

theorem Appends.lowerNodes (h : Appends lower) (exit : Label) (nodes : List Node)
    (hd : d.Fresh) : ∃ count code ws, d.Grows count code ws (lowerNodes lower exit nodes d).2 := by
  induction nodes with
  | nil => exact ⟨0, [], [], .refl d⟩
  | cons n rest ih =>
    obtain ⟨_, _, _, hrest⟩ := ih
    obtain ⟨_, _, _, hown⟩ := h n (Lowering.lowerNodes lower exit rest d).1 _ (hrest.fresh hd)
    exact ⟨_, _, _, hrest.trans hown⟩

theorem lowerNodes_append (lower : Node → Label → Lowering Label) (exit : Label)
    (front back : List Node) (d : Draft) :
    lowerNodes lower exit (front ++ back) d =
      lowerNodes lower (lowerNodes lower exit back d).1 front (lowerNodes lower exit back d).2 := by
  induction front with
  | nil => rfl
  | cons n front ih => exact congrArg (fun result => lower n result.1 result.2) ih

/-- **Behind a trap nothing is reached.** The nodes that follow in a row are lowered before it, and
those in front of it leave it as it is. -/
theorem Traps.jumps (h : Traps lower n) (hlower : Appends lower) (hd : d.Fresh)
    (hexit : exit ∈ d.blocks.keys) (front rest : List Node) :
    let behind := lowerNodes lower exit rest d
    let header := (lower n behind.1 behind.2).1
    let result := lowerNodes lower exit (front ++ n :: rest) d
    IsHeader result.2.blocks n header ∧ ∀ t, Relation.ReflTransGen result.2.Jumps header t →
      t ≠ exit ∧ t ∉ behind.2.blocks.keys := by
  intro behind header result
  obtain ⟨_, _, _, hbehind⟩ := hlower.lowerNodes exit rest hd
  obtain ⟨_, _, _, hown⟩ := hlower n behind.1 behind.2 (hbehind.fresh hd)
  obtain ⟨_, _, _, hfront⟩ := hlower.lowerNodes header front (hown.fresh (hbehind.fresh hd))
  obtain ⟨trap, htrap, hadded, hnew, body, hheader⟩ := h behind.1 behind.2 (hbehind.fresh hd)
  have hheld : ∀ b ∈ trap, result.2.blocks.get? b.label = some b := by
    intro b hb
    change (lowerNodes lower exit (front ++ n :: rest) d).2.blocks.get? b.label = some b
    rw [lowerNodes_append]
    exact hfront.get?_of_get? (hadded b hb)
  refine ⟨⟨body, hheld _ hheader⟩, fun t ht => ?_⟩
  have hstays := htrap.mem_of_jumps hheld (List.mem_map.2 ⟨_, hheader, rfl⟩) ht
  refine ⟨?_, hnew t hstays⟩
  rintro rfl
  exact hnew t hstays (hbehind.keys_subset hexit)

end

variable (σ : Type) [HasSink σ]

/-- A node adds its own blocks and then the code of its body. -/
theorem lowerNode_grows (g : Graph) (active : List NodeId) (n : Node) (next : Label) {d : Draft}
    (hd : d.Fresh) :
    let rules := (Registry.standard σ).rules
    let body := g.bodyOutline active n
    Builds (lowerNode rules ⟨g, lowerChain rules g active⟩ n next) d (n.entry d.allocated next)
      (n.kind.width + body.size)
      (n.blocks d.allocated next
          (body.entry (d.allocated + n.kind.width) (n.bodyExit d.allocated next)) ++
        body.code (d.allocated + n.kind.width) (n.bodyExit d.allocated next))
      (body.warnings ++ n.warnings) := by
  intro rules body
  rw [lowerNode_standard]
  refine lowerKind_builds hd (fun hloop => ?_) (fun hplain => ?_) next
  · change BuildsOutline _ (g.bodyOutline active n)
    rw [Graph.bodyOutline, if_pos hloop]
    exact lowerChain_builds σ g active n.body
  · change g.bodyOutline active n = _
    rw [Graph.bodyOutline, hplain]
    rfl

theorem appends_lowerNode (g : Graph) (active : List NodeId) :
    Appends (lowerNode (Registry.standard σ).rules
      ⟨g, lowerChain (Registry.standard σ).rules g active⟩) :=
  fun n next _ hd => ⟨_, _, _, (lowerNode_grows σ g active n next hd).2⟩

theorem traps_lowerNode (g : Graph) (active : List NodeId) {n : Node} (h : n.type = "forever") :
    Traps (lowerNode (Registry.standard σ).rules
      ⟨g, lowerChain (Registry.standard σ).rules g active⟩) n := by
  intro next d hd
  have hkind := Node.kind_forever h
  obtain ⟨hheader, hgrows⟩ := lowerNode_grows σ g active n next hd
  refine ⟨_, Outline.staysIn_forever (g.bodyOutline active n) hkind d.allocated next,
    fun b hb => hgrows.get?_of_mem hb, fun t ht => (hgrows.adds_iff.2 ht).2, ?_⟩
  rw [Node.blocks_forever hkind, hheader]
  exact ⟨_, List.mem_append_left _ (List.mem_singleton.2 rfl)⟩

end Lowering

/-! ## Loops at any depth -/

/-- **A block of an endless loop is in a trap**, however deep the loop is nested. -/
theorem Outline.exists_trap {o : Outline} {n : Node} (hkind : n.kind = .forever)
    (hn : ∀ m ∈ o.nodes, m.id = n.id → m = n) {a : Nat} {exit : Label} {b : BasicBlock}
    (hb : b ∈ o.code a exit) {i : Instruction} (hi : i ∈ b.instructions)
    (hsource : i.source = some n.id) :
    ∃ trap, trap ⊆ o.code a exit ∧ b ∈ trap ∧ StaysIn trap fun _ => False := by
  induction o generalizing a exit with
  | ending => cases hb
  | node m body rest ihbody ihrest =>
    simp only [nodes, List.forall_mem_append, List.forall_mem_singleton] at hn
    obtain ⟨hrest, hbody, hm⟩ := hn
    simp only [code, List.mem_append] at hb ⊢
    rcases hb with hb | hb | hb
    · obtain ⟨trap, hsub, htrap⟩ := ihrest hrest hb
      exact ⟨trap, List.subset_append_of_subset_left _ hsub, htrap⟩
    · obtain rfl := hm (Node.source_of_mem_blocks hb hi hsource)
      exact ⟨_, List.subset_append_right _ _, List.mem_append_left _ hb,
        staysIn_forever body hkind _ _⟩
    · obtain ⟨trap, hsub, htrap⟩ := ihbody hbody hb
      refine ⟨trap, List.subset_append_of_subset_right _ ?_, htrap⟩
      exact List.subset_append_of_subset_right _ hsub

theorem Graph.exists_trap {g : Graph} {n : Node} (hn : n ∈ g.nodes) (htype : n.type = "forever")
    {active : List NodeId} {start : Option NodeId} {a : Nat} {exit header body : Label}
    (hb : ⟨header, [(Action.jump body).tagged n.id]⟩ ∈ (g.outline active start).code a exit) :
    ∃ trap, trap ⊆ (g.outline active start).code a exit ∧ header ∈ trap.map BasicBlock.label ∧
      StaysIn trap fun _ => False := by
  obtain ⟨trap, hsub, hmem, hstays⟩ := Outline.exists_trap (Node.kind_forever htype)
    (fun m hm hid => eq_of_id_eq (mem_of_get? (get?_of_mem_nodes hm)) hn hid) hb
    List.mem_cons_self rfl
  exact ⟨trap, hsub, List.mem_map.2 ⟨_, hmem, rfl⟩, hstays⟩

/-- Paths of jumps that begin at a header stay in what was added with it. -/
theorem Draft.Grows.adds_of_jumps {g : Graph} {active : List NodeId} {start : Option NodeId}
    {d d' : Draft} {exit : Label} {count : Nat} {ws : List Warning}
    (h : d.Grows count ((g.outline active start).code d.allocated exit) ws d') {n : Node}
    (hn : n ∈ g.nodes) (htype : n.type = "forever") {header t : Label}
    (hheader : IsHeader d'.blocks n header) (hadded : d.Adds d' header)
    (ht : Relation.ReflTransGen d'.Jumps header t) : d.Adds d' t := by
  obtain ⟨body, hblock⟩ := hheader
  obtain ⟨trap, hsub, hmem, hstays⟩ := Graph.exists_trap hn htype (h.mem_of_adds hadded hblock).1
  have hstay := hstays.mem_of_jumps (fun b hb => h.get?_of_mem (hsub hb)) hmem ht
  exact h.adds_iff.2 (List.map_subset _ hsub hstay)

/-! ## Threads in traps -/

namespace Interpreter

variable {σ : Type} {registry : Registry σ} {r : Routine} {trap : List BasicBlock} {c : Context}

theorem turn_of_trap (hregistry : registry.Transparent) (hstays : StaysIn trap fun _ => False)
    (hholds : r.Holds trap) (breakpoints : List NodeId) (now : Float)
    (hc : Inside trap c.position) (w : σ) :
    LeavesAs (fun c => Inside trap c.position) (turn registry r breakpoints now c w) := by
  obtain ⟨i, hi⟩ : ∃ i, r.instruction? c.position = some i := by
    obtain ⟨b, hb, hlabel, hip⟩ := hc
    rw [Routine.instruction?, hlabel, hholds b hb]
    exact ⟨_, List.getElem?_eq_getElem hip⟩
  have hfetch : fetch? r c = some i := hi
  simp only [turn, hfetch]
  split
  · exact ⟨Status.noConfusion, hc⟩
  · have hleaves :=
      execute_leavesAs hregistry i.action now (p := c.position) (c := advance c i) rfl w
    have hinside : ∀ c' : Context, c'.position = c.position.after registry i.action →
        Inside trap c'.position := by
      intro c' hc'
      exact hstays.inside_of_leads hholds hc ⟨i, hi, hc'⟩
    exact hleaves.mono hinside fun result hresult => hresult.imp_right (hinside _)

theorem run_of_trap (hregistry : registry.Transparent) (hstays : StaysIn trap fun _ => False)
    (hholds : r.Holds trap) (breakpoints : List NodeId) (now : Float) (budget : Nat)
    (hc : Inside trap c.position) (w : σ) :
    (run registry r breakpoints now budget c w).status ≠ .halted ∧
      Inside trap (run registry r breakpoints now budget c w).context.position :=
  run_induction (P := fun c => Inside trap c.position)
    (Q := fun result => result.status ≠ .halted ∧ Inside trap result.context.position)
    (fun _ _ hc => ⟨Status.noConfusion, hc⟩)
    (fun _ w hc => turn_of_trap hregistry hstays hholds breakpoints now hc w) budget hc w

/-- **A thread that has come to a trap never halts**, however it is driven. -/
theorem status_of_trap {m : Interpreter σ} {routine : String} (hregistry : m.registry.Transparent)
    (hr : m.program.routine? routine = some r) (hstays : StaysIn trap fun _ => False)
    (hholds : r.Holds trap) (hc : Inside trap c.position) (calls : List (SliceCall σ))
    (call : SliceCall σ) :
    (m.answer routine (m.contextAfter routine c calls) call).status ≠ .halted := by
  have hslice : ∀ {c : Context} (call : SliceCall σ), Inside trap c.position →
      (m.answer routine c call).status ≠ .halted ∧
        Inside trap (m.answer routine c call).context.position := by
    intro c call hc
    rw [answer_eq_run hr]
    exact run_of_trap hregistry hstays hholds _ _ _ hc _
  induction calls generalizing c with
  | nil => exact (hslice call hc).1
  | cons first calls ih => exact ih (hslice first hc).2

end Interpreter

namespace Lowering

variable (σ : Type) [HasSink σ]

theorem status_of_header {g : Graph} {starts : List Node} {s n : Node} (hs : s ∈ starts)
    (hn : n ∈ g.nodes) (htype : n.type = "forever") {header : Label}
    (hheader : IsHeader (compileThread (Registry.standard σ).rules g s.id).1.blocks n header)
    {c : Context} (hblock : c.block = header) (hip : c.ip = 0) (calls : List (SliceCall σ))
    (call : SliceCall σ) :
    let m := machineOf σ g starts
    (m.answer (routineName s.id) (m.contextAfter (routineName s.id) c calls) call).status ≠
      .halted := by
  intro m
  have hr : m.program.routine? (routineName s.id) =
      some (compileThread (Registry.standard σ).rules g s.id).1 :=
    (routine?_compile_iff _ g starts).2 ⟨s, hs, rfl, rfl⟩
  obtain ⟨body, hbody⟩ := hheader
  -- the block where the thread ends has no instruction
  have hcode : ⟨header, [(Action.jump body).tagged n.id]⟩ ∈
      (threadOutline g s.id).code 1 threadEnd := by
    obtain ⟨-, hend | hcode⟩ := compileThread_block σ (Keyed.get?_eq_some_iff.1 hbody)
    · cases hend
    · exact hcode
  obtain ⟨trap, hsub, hmem, hstays⟩ := Graph.exists_trap hn htype hcode
  have hholds : (compileThread (Registry.standard σ).rules g s.id).1.Holds trap :=
    fun b hb => compileThread_block?_of_mem σ (List.mem_cons_of_mem _ (hsub hb))
  have hposition : c.position = ⟨header, 0, c.memory⟩ := Position.ext hblock hip rfl
  refine Interpreter.status_of_trap (Registry.transparent_standard σ) hr hstays hholds ?_ calls call
  rw [hposition]
  exact hstays.inside_of_mem hmem c.memory

/-- In a chain with an endless loop, control that has come to the header gets neither to where the
chain is left nor to what was lowered before the loop: the nodes that follow it. -/
theorem forever_jumps {g : Graph} {active : List NodeId} {start cut : Option NodeId}
    {front rest : List Node} {n : Node} (hchain : g.chain active start = (front ++ n :: rest, cut))
    (htype : n.type = "forever") {d : Draft} (hd : d.Fresh) {exit : Label}
    (hexit : exit ∈ d.blocks.keys) :
    let rules := (Registry.standard σ).rules
    let inner := (front ++ n :: rest).map Node.id ++ active
    let lower := lowerNode rules ⟨g, lowerChain rules g inner⟩
    let behind := lowerNodes lower exit rest (warnCut cut d).2
    let header := (lower n behind.1 behind.2).1
    let result := lowerChain rules g active start exit d
    IsHeader result.2.blocks n header ∧ ∀ t, Relation.ReflTransGen result.2.Jumps header t →
      t ≠ exit ∧ t ∉ behind.2.blocks.keys := by
  intro rules inner lower behind header result
  have hcut := warnCut_grows cut d
  have hjumps := (traps_lowerNode σ g inner htype).jumps (appends_lowerNode σ g inner)
    (hcut.fresh hd) (hcut.keys_subset hexit) front rest
  have hresult : result = lowerNodes lower exit (front ++ n :: rest) (warnCut cut d).2 := by
    change lowerChain rules g active start exit d = _
    rw [lowerChain_eq _ exit hchain]
    rfl
  rw [hresult]
  exact hjumps

/-- **A chain becomes a closed region with one exit**, in whatever state of lowering it is lowered,
and what enters an endless loop stays in it: no path of jumps leads from the header to the exit or
behind the loop, and no thread that has come to a header halts. -/
theorem chains_closed (g : Graph) :
    let rules := (Registry.standard σ).rules
    (∀ (active : List NodeId) (start : Option NodeId) (exit : Label) (d : Draft),
      Draft.empty.LeadsTo d → exit ∈ d.blocks.keys →
      let result := lowerChain rules g active start exit d
      d.LeadsTo result.2 ∧ d.AddsRegion result.2 result.1 exit ∧
      (∀ front n rest cut, g.chain active start = (front ++ n :: rest, cut) → n.type = "forever" →
        let inner := (front ++ n :: rest).map Node.id ++ active
        let lower := lowerNode rules ⟨g, lowerChain rules g inner⟩
        let behind := lowerNodes lower exit rest (warnCut cut d).2
        let header := (lower n behind.1 behind.2).1
        IsHeader result.2.blocks n header ∧ ∀ t, Relation.ReflTransGen result.2.Jumps header t →
          t ≠ exit ∧ t ∉ behind.2.blocks.keys) ∧
      ∀ n ∈ g.nodes, n.type = "forever" → ∀ header, IsHeader result.2.blocks n header →
        d.Adds result.2 header → ∀ t, Relation.ReflTransGen result.2.Jumps header t →
          d.Adds result.2 t) ∧
    ∀ starts, ∀ s ∈ starts, ∀ n ∈ g.nodes, n.type = "forever" → ∀ header,
      IsHeader (compileThread rules g s.id).1.blocks n header →
      ∀ c : Context, c.block = header → c.ip = 0 → ∀ calls call,
        let m := machineOf σ g starts
        (m.answer (routineName s.id) (m.contextAfter (routineName s.id) c calls) call).status ≠
          .halted := by
  intro rules
  refine ⟨fun active start exit d hreached hexit => ?_, ?_⟩
  · have hd := hreached.fresh Draft.fresh_empty
    obtain ⟨hentry, hgrows⟩ := lowerChain_builds σ g active start exit d hd
    refine ⟨?_, ?_, ?_, ?_⟩
    · exact lowerChain_careful σ g active start exit d (List.nil_subset _)
    · rw [hentry]
      exact hgrows.addsRegion
    · intro front n rest cut hchain htype
      exact forever_jumps σ hchain htype hd hexit
    · intro n hn htype header hheader hadded t ht
      exact hgrows.adds_of_jumps hn htype hheader hadded ht
  · intro starts s hs n hn htype header hheader c hblock hip calls call
    exact status_of_header σ hs hn htype hheader hblock hip calls call

/-- A tone that never ends. -/
def hum : Node := ⟨"hum", "forever", ∅, some "breath", some "tone"⟩

/-- What never follows the tone. -/
def breath : Node := ⟨"breath", "rest", ∅, none, none⟩

/-- An endless tone in a loop that would be left. -/
def drone : Graph :=
  ⟨[⟨"s", "start", ∅, some "twice", none⟩, ⟨"twice", "repeat", ∅, some "coda", some "hum"⟩, hum,
      ⟨"tone", "play_note", ∅, none, none⟩, breath, ⟨"coda", "print", ∅, none, none⟩], by decide⟩

theorem chains_closed_drone :
    let rules := (Registry.standard Sink).rules
    let opened := (newBlock "thread_end" .empty).2
    let result := lowerChain rules drone [] (some "hum") "thread_end_1" opened
    let m := machineOf Sink drone drone.nodes
    (Draft.empty.LeadsTo opened ∧ "thread_end_1" ∈ opened.blocks.keys ∧
      drone.chain [] (some "hum") = ([hum, breath], none)) ∧
    opened.AddsRegion result.2 "forever_header_hum_3" "thread_end_1" ∧
    (∀ t, Relation.ReflTransGen result.2.Jumps "forever_header_hum_3" t →
      t ≠ "thread_end_1" ∧ t ≠ "block_rest_breath_2") ∧
    IsHeader (compileThread rules drone "s").1.blocks hum "forever_header_hum_7" ∧
    ∀ c : Context, c.block = "forever_header_hum_7" → c.ip = 0 → ∀ calls call,
      (m.answer "thread_s" (m.contextAfter "thread_s" c calls) call).status ≠ .halted := by
  intro rules opened result m
  have hopened : Draft.empty.LeadsTo opened := .newBlock "thread_end" .refl
  have hexit : "thread_end_1" ∈ opened.blocks.keys := by decide +kernel
  have hchain : drone.chain [] (some "hum") = ([hum, breath], none) := by decide +kernel
  have hheader : IsHeader (compileThread rules drone "s").1.blocks hum "forever_header_hum_7" :=
    ⟨"block_play_note_tone_8", by decide +kernel⟩
  obtain ⟨hclosed, hnever⟩ := chains_closed Sink drone
  obtain ⟨-, hregion, hloop, -⟩ := hclosed [] (some "hum") "thread_end_1" opened hopened hexit
  let lower := lowerNode rules ⟨drone, lowerChain rules drone ["hum", "breath"]⟩
  let behind := lowerNodes lower "thread_end_1" [breath] opened
  have hjumps : ∀ t, Relation.ReflTransGen result.2.Jumps (lower hum behind.1 behind.2).1 t →
      t ≠ "thread_end_1" ∧ t ∉ behind.2.blocks.keys := (hloop [] hum [breath] none hchain rfl).2
  have hentry : result.1 = "forever_header_hum_3" := by decide +kernel
  have hfirst : (lower hum behind.1 behind.2).1 = "forever_header_hum_3" := by decide +kernel
  have hbehind : "block_rest_breath_2" ∈ behind.2.blocks.keys := by decide +kernel
  refine ⟨⟨hopened, hexit, hchain⟩, hentry ▸ hregion, fun t ht => ?_, hheader, ?_⟩
  · obtain ⟨hne, hnew⟩ := hjumps t (hfirst ▸ ht)
    exact ⟨hne, fun heq => hnew (heq ▸ hbehind)⟩
  · exact hnever drone.nodes _ List.mem_cons_self hum (by decide) rfl _ hheader

end Lowering

end TuneBlocks
