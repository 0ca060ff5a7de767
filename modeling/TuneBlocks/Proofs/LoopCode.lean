import TuneBlocks.Proofs.Walk

/-!
# The code of counted loops

Each repeat node that is lowered becomes a `Loop`: three blocks around the code of its body, and the
label where the loop is left. `Outline.loops` lists the loops of an outline, and no other block sets
a counter (`mem_loops_of_declare`). What execution depends on is said by `Loop.Coded`. The blocks
are in the routine, no two labels are the same, and from the body control can only go on to the
counter's increment. The first block of the body is entered once for each pass: nothing in the body
jumps back to it, or else control gets caught behind it in an endless loop and the pass is never
completed (`EntersOnce`).
-/

namespace TuneBlocks

open Draft (label)
open Lowering (counterName)

/-- A counted loop, with the labels of its code. -/
structure Loop where
  node : NodeId
  bound : Operand
  /-- The block that sets the counter to zero. -/
  init : Label
  /-- The block that compares the counter with the bound. -/
  cond : Label
  /-- The block that increases the counter. -/
  increment : Label
  /-- Where a pass of the body begins. -/
  body : Label
  /-- Where the loop is left. -/
  exit : Label
deriving DecidableEq

namespace Loop

def counter (l : Loop) : String := counterName l.node

/-- The blocks of the loop, its body apart. -/
def blocks (l : Loop) : List BasicBlock :=
  [⟨l.init, [(Action.declare l.counter (.literal (.number 0))).tagged l.node,
      (Action.jump l.cond).tagged l.node]⟩,
    ⟨l.cond, [(Action.branch .lt l.counter l.bound l.body l.exit).tagged l.node]⟩,
    ⟨l.increment, [(Action.add l.counter (.literal (.number 1))).tagged l.node,
      (Action.jump l.cond).untagged]⟩]

end Loop

/-! ## Code that control stays in -/

/-- The code has blocks that go on to each other, or out of the code to known labels. -/
def StaysIn (code : List BasicBlock) (out : Label → Prop) : Prop :=
  ∀ b ∈ code, b.instructions ≠ [] ∧
    b.WF fun t => out t ∨ t ∈ code.map BasicBlock.label

/-- Control that enters the code at `entry` and gets to `exit` has been at `entry` once: nothing
jumps there, or control never gets out again. -/
def EntersOnce (code : List BasicBlock) (entry exit : Label) : Prop :=
  (∀ b ∈ code, ∀ i ∈ b.instructions, entry ∈ i.targets → entry = exit) ∨
    ∃ trap, trap ⊆ code ∧ entry ∈ trap.map BasicBlock.label ∧ StaysIn trap fun _ => False

/-- The blocks of the loop and the code of its body are in the routine, apart from each other. -/
structure Loop.Coded (l : Loop) (r : Routine) (code : List BasicBlock) : Prop where
  own : r.Holds l.blocks
  below : r.Holds code
  fresh : (l.exit :: (l.blocks ++ code).map BasicBlock.label).Nodup
  entry : l.body = l.increment ∨ l.body ∈ code.map BasicBlock.label
  staysIn : StaysIn code (· = l.increment)
  once : EntersOnce code l.body l.increment

/-! ## Loops of outlines -/

/-- The loop of a node that is followed by `next`, with its body entered at `body`. -/
def Node.loops (n : Node) (a : Nat) (next body : Label) : List Loop :=
  match n.kind with
  | .counted bound =>
    [{ node := n.id
       bound := bound
       init := label ("loop_init_" ++ n.id) (a + 1)
       cond := label ("loop_cond_" ++ n.id) (a + 2)
       increment := label ("loop_increment_" ++ n.id) (a + 3)
       body := body
       exit := next }]
  | _ => []

namespace Outline

/-- The loops of the chain with all that is below it, in the order of their code. -/
def loops : Outline → (a : Nat) → (exit : Label) → List Loop
  | .ending _, _, _ => []
  | .node n body rest, a, exit =>
    let own := a + rest.size
    let next := rest.entry a exit
    rest.loops a exit ++
      (n.loops own next (body.entry (own + n.kind.width) (n.bodyExit own next)) ++
        body.loops (own + n.kind.width) (n.bodyExit own next))

/-- Only loops have bodies. -/
def Tidy : Outline → Prop
  | .ending _ => True
  | .node n body rest => (n.kind.isLoop = false → body = .ending none) ∧ body.Tidy ∧ rest.Tidy

theorem tidy_ofNodes {body : Node → Outline} {nodes : List Node} (cut : Option NodeId)
    (hplain : ∀ n ∈ nodes, n.kind.isLoop = false → body n = .ending none)
    (hbody : ∀ n ∈ nodes, (body n).Tidy) : (ofNodes body cut nodes).Tidy := by
  induction nodes with
  | nil => trivial
  | cons n rest ih =>
    refine ⟨hplain n List.mem_cons_self, hbody n List.mem_cons_self, ih ?_ ?_⟩
    · exact fun m hm => hplain m (List.mem_cons_of_mem _ hm)
    · exact fun m hm => hbody m (List.mem_cons_of_mem _ hm)

end Outline

theorem Graph.tidy_outline (g : Graph) (active : List NodeId) (start : Option NodeId) :
    (g.outline active start).Tidy := by
  induction hm : unmarked g.ids active using Nat.strongRecOn generalizing active start with
  | ind m ih =>
    subst hm
    rcases hchain : g.chain active start with ⟨nodes, cut⟩
    rw [outline_eq hchain]
    refine Outline.tidy_ofNodes cut (fun n _ hplain => ?_) fun n hn => ?_
    · rw [bodyOutline, hplain]
      rfl
    · unfold bodyOutline
      split
      · exact ih _ (unmarked_chain hchain hn) _ _ rfl
      · trivial

namespace Outline

variable {o body rest : Outline} {n : Node} {a : Nat} {exit : Label}

theorem staysIn_code (o : Outline) (a : Nat) (exit : Label) :
    StaysIn (o.code a exit) (· = exit) :=
  fun _ hb => o.code_wf a exit hb

/-- Labels that differ in a chain: those of the node and its body are not met in what follows. -/
theorem fresh_node (h : (exit :: ((node n body rest).code a exit).map BasicBlock.label).Nodup) :
    let own := a + rest.size
    let next := rest.entry a exit
    let blocks := n.blocks own next (body.entry (own + n.kind.width) (n.bodyExit own next)) ++
      body.code (own + n.kind.width) (n.bodyExit own next)
    (exit :: (rest.code a exit).map BasicBlock.label).Nodup ∧
      (blocks.map BasicBlock.label).Nodup ∧
      ∀ t ∈ blocks.map BasicBlock.label, ¬ rest.Region a exit t := by
  intro own next blocks
  have hcode : (node n body rest).code a exit = rest.code a exit ++ blocks := rfl
  rw [hcode, List.map_append, ← List.cons_append, List.nodup_append] at h
  obtain ⟨hrest, hblocks, hapart⟩ := h
  refine ⟨hrest, hblocks, fun t ht hregion => ?_⟩
  exact hapart t (List.mem_cons.2 hregion) t ht rfl

end Outline

namespace Node

variable {n : Node} {a : Nat} {next body : Label}

/-- Where the jumps of a node's blocks lead. -/
theorem mem_targets {b : BasicBlock} {i : Instruction} {t : Label}
    (hb : b ∈ n.blocks a next body) (hi : i ∈ b.instructions) (ht : t ∈ i.targets) :
    t = next ∨ t = body ∨ t = label ("loop_cond_" ++ n.id) (a + 2) := by
  cases hkind : n.kind with
  | act x =>
    simp only [blocks, hkind, List.mem_singleton] at hb
    subst hb
    simp only [List.mem_cons, List.not_mem_nil, or_false] at hi
    rcases hi with rfl | rfl
    · rw [Instruction.targets, Action.tagged,
        Action.targets_of_not_terminator (isTerminator_of_kind hkind)] at ht
      cases ht
    · exact .inl (List.mem_singleton.1 ht)
  | counted bound =>
    simp only [blocks, hkind, List.mem_cons, List.not_mem_nil, or_false] at hb
    rcases hb with rfl | rfl | rfl
    · simp only [List.mem_cons, List.not_mem_nil, or_false] at hi
      rcases hi with rfl | rfl
      · cases ht
      · exact .inr (.inr (List.mem_singleton.1 ht))
    · rw [List.mem_singleton.1 hi] at ht
      rcases List.mem_cons.1 ht with rfl | ht
      · exact .inr (.inl rfl)
      · exact .inl (List.mem_singleton.1 ht)
    · simp only [List.mem_cons, List.not_mem_nil, or_false] at hi
      rcases hi with rfl | rfl
      · cases ht
      · exact .inr (.inr (List.mem_singleton.1 ht))
  | place =>
    simp only [blocks, hkind, List.mem_singleton] at hb
    subst hb
    rw [List.mem_singleton.1 hi] at ht
    exact .inl (List.mem_singleton.1 ht)
  | forever =>
    simp only [blocks, hkind, List.mem_singleton] at hb
    subst hb
    rw [List.mem_singleton.1 hi] at ht
    exact .inr (.inl (List.mem_singleton.1 ht))
  | unknown => simp [blocks, hkind] at hb

theorem kind_ne_declare (n : Node) (name : String) (v : Operand) :
    n.kind ≠ .act (.declare name v) := by
  intro h
  unfold kind at h
  split at h <;> cases h

theorem mem_loops_of_declare {b : BasicBlock} (hb : b ∈ n.blocks a next body) {id : NodeId}
    {v : Operand} (hi : (Action.declare (counterName id) v).tagged id ∈ b.instructions) :
    ∃ l ∈ n.loops a next body, l.init = b.label ∧ l.node = id := by
  cases hkind : n.kind with
  | counted bound =>
    simp only [blocks, hkind, List.mem_cons, List.not_mem_nil, or_false] at hb
    simp only [loops, hkind, List.mem_singleton, exists_eq_left]
    rcases hb with rfl | rfl | rfl <;>
      simp only [Action.tagged, Action.untagged, List.mem_cons, List.not_mem_nil,
        Instruction.mk.injEq, Option.some.injEq, reduceCtorEq, false_and, or_false] at hi
    exact ⟨rfl, hi.2.symm⟩
  | act x =>
    simp only [blocks, hkind, List.mem_singleton] at hb
    subst hb
    simp only [Action.tagged, Action.untagged, List.mem_cons, List.not_mem_nil,
      Instruction.mk.injEq, Option.some.injEq, reduceCtorEq, false_and, or_false] at hi
    exact absurd (hi.1 ▸ hkind) (n.kind_ne_declare _ _)
  | place | forever =>
    simp only [blocks, hkind, List.mem_singleton] at hb
    subst hb
    cases List.mem_singleton.1 hi
  | unknown => simp [blocks, hkind] at hb

/-- The first label of a node that is known is one of its own, and the lowest. -/
theorem entry_of_known (h : n.kind ≠ .unknown) (a : Nat) (next body : Label) :
    n.entry a next ∈ (n.blocks a next body).map BasicBlock.label ∧
      ∃ stem, n.entry a next = label stem (a + 1) := by
  cases hkind : n.kind with
  | unknown => exact absurd hkind h
  | _ =>
    simp only [entry, blocks, hkind, List.map_cons, List.mem_cons, true_or, true_and]
    exact ⟨_, rfl⟩

theorem bodyExit_eq (h : n.kind ≠ .forever) (a : Nat) (next : Label) :
    n.bodyExit a next = next ∨ n.bodyExit a next = label ("loop_increment_" ++ n.id) (a + 3) := by
  cases hkind : n.kind with
  | forever => exact absurd hkind h
  | counted bound => exact .inr (by simp only [bodyExit, hkind])
  | _ => exact .inl (by simp only [bodyExit, hkind])

end Node

namespace Outline

variable {o body rest : Outline} {n : Node} {a : Nat} {exit : Label}

/-- Nothing jumps to the first block of a chain that begins with a known node, unless the node is an
endless loop. -/
theorem entry_not_target (hknown : n.kind ≠ .unknown) (hends : n.kind ≠ .forever)
    (h : (exit :: ((node n body rest).code a exit).map BasicBlock.label).Nodup) {b : BasicBlock}
    (hb : b ∈ (node n body rest).code a exit) {i : Instruction} (hi : i ∈ b.instructions) :
    (node n body rest).entry a exit ∉ i.targets := by
  intro htarget
  obtain ⟨-, hblocks, hapart⟩ := fresh_node h
  obtain ⟨hown, stem, hstem⟩ := Node.entry_of_known hknown (a + rest.size) (rest.entry a exit)
    (body.entry (a + rest.size + n.kind.width) (n.bodyExit (a + rest.size) (rest.entry a exit)))
  -- the label is in none of the regions that jumps lead to
  have hrest : ¬ rest.Region a exit ((node n body rest).entry a exit) := by
    apply hapart
    rw [List.map_append]
    exact List.mem_append_left _ hown
  have hbody : ¬ body.Region (a + rest.size + n.kind.width)
      (n.bodyExit (a + rest.size) (rest.entry a exit)) ((node n body rest).entry a exit) := by
    rintro (hexit | hlabel)
    · rcases Node.bodyExit_eq hends (a + rest.size) (rest.entry a exit) with hnext | hincrement
      · rw [hexit, hnext] at hrest
        exact hrest (rest.region_entry a exit)
      · rw [hincrement, entry, hstem] at hexit
        have := Draft.label_number hexit
        omega
    · rw [List.map_append, List.nodup_append] at hblocks
      exact hblocks.2.2 _ hown _ hlabel rfl
  simp only [code, List.mem_append] at hb
  rcases hb with hb | hb | hb
  · exact hrest ((rest.code_wf a exit hb).2.targets i hi _ htarget)
  · rcases Node.mem_targets hb hi htarget with heq | heq | heq
    · rw [heq] at hrest
      exact hrest (rest.region_entry a exit)
    · rw [heq] at hbody
      exact hbody (body.region_entry _ _)
    · rw [entry, hstem] at heq
      have := Draft.label_number heq
      omega
  · exact hbody ((body.code_wf _ _ hb).2.targets i hi _ htarget)

/-- An endless loop is never left. -/
theorem staysIn_forever (body : Outline) (hkind : n.kind = .forever) (a : Nat) (next : Label) :
    StaysIn (n.blocks a next (body.entry (a + n.kind.width) (n.bodyExit a next)) ++
      body.code (a + n.kind.width) (n.bodyExit a next)) fun _ => False := by
  have hheader : n.bodyExit a next ∈
      (n.blocks a next (body.entry (a + n.kind.width) (n.bodyExit a next))).map
        BasicBlock.label := by
    simp only [Node.bodyExit, Node.blocks, hkind, List.map_cons, List.mem_cons, true_or]
  have hregion : ∀ t, body.Region (a + n.kind.width) (n.bodyExit a next) t →
      t ∈ (n.blocks a next (body.entry (a + n.kind.width) (n.bodyExit a next)) ++
        body.code (a + n.kind.width) (n.bodyExit a next)).map BasicBlock.label := by
    rintro t (rfl | ht)
    · rw [List.map_append]
      exact List.mem_append_left _ hheader
    · rw [List.map_append]
      exact List.mem_append_right _ ht
  intro b hb
  rcases List.mem_append.1 hb with hb | hb
  · obtain ⟨hne, hwf⟩ := Node.blocks_wf hb
    refine ⟨hne, ⟨hwf.jumps, fun i hi t ht => .inr ?_⟩⟩
    apply hregion
    simp only [Node.blocks, hkind, List.mem_singleton] at hb
    subst hb
    rw [List.mem_singleton.1 hi] at ht
    rw [List.mem_singleton.1 ht, hkind]
    exact body.region_entry _ _
  · obtain ⟨hne, hwf⟩ := body.code_wf _ _ hb
    exact ⟨hne, hwf.mono fun t ht => .inr (hregion t ht)⟩

/-- **The code of a chain is entered once.** Its first block is the target of a jump only if it is
the header of an endless loop, and then control is caught there. -/
theorem entersOnce_code (htidy : o.Tidy)
    (h : (exit :: (o.code a exit).map BasicBlock.label).Nodup) :
    EntersOnce (o.code a exit) (o.entry a exit) exit := by
  induction o with
  | ending => exact .inl fun b hb => nomatch hb
  | node n body rest _ ihrest =>
    obtain ⟨hplain, -, hrest⟩ := htidy
    by_cases hknown : n.kind = .unknown
    · have hbody := hplain (by rw [hknown]; rfl)
      have hcode : (node n body rest).code a exit = rest.code a exit := by
        simp only [code, hbody, Node.blocks, hknown, List.append_nil]
      have hentry : (node n body rest).entry a exit = rest.entry a exit := by
        simp only [entry, Node.entry, hknown]
      rw [hcode] at h ⊢
      rw [hentry]
      exact ihrest hrest h
    · by_cases hforever : n.kind = .forever
      · have hstays := staysIn_forever body hforever (a + rest.size) (rest.entry a exit)
        refine .inr ⟨_, fun b hb => ?_, ?_, hstays⟩
        · exact List.mem_append_right _ hb
        · rw [List.map_append]
          exact List.mem_append_left _ (Node.entry_of_known hknown _ _ _).1
      · exact .inl fun b hb i hi htarget =>
          absurd htarget (entry_not_target hknown hforever h hb hi)

theorem fresh_body (hloop : n.kind.isLoop = true) {next entry : Label}
    (h : ((n.blocks a next entry ++ body.code (a + n.kind.width) (n.bodyExit a next)).map
      BasicBlock.label).Nodup) :
    (n.bodyExit a next ::
      (body.code (a + n.kind.width) (n.bodyExit a next)).map BasicBlock.label).Nodup := by
  have hown : n.bodyExit a next ∈ (n.blocks a next entry).map BasicBlock.label := by
    cases hkind : n.kind with
    | counted | forever => simp [Node.bodyExit, Node.blocks, hkind]
    | _ =>
      rw [hkind] at hloop
      cases hloop
  rw [List.map_append, List.nodup_append] at h
  exact List.nodup_cons.2 ⟨fun hmem => h.2.2 _ hown _ hmem rfl, h.2.1⟩

/-- The loop of a node is coded if the node's blocks and its body are in the routine. -/
theorem coded_of_node {r : Routine} {next : Label} (htidy : body.Tidy)
    (hown : r.Holds (n.blocks a next (body.entry (a + n.kind.width) (n.bodyExit a next))))
    (hbelow : r.Holds (body.code (a + n.kind.width) (n.bodyExit a next)))
    (hfresh : (next :: (n.blocks a next (body.entry (a + n.kind.width) (n.bodyExit a next)) ++
      body.code (a + n.kind.width) (n.bodyExit a next)).map BasicBlock.label).Nodup) {l : Loop}
    (hl : l ∈ n.loops a next (body.entry (a + n.kind.width) (n.bodyExit a next))) :
    l.Coded r (body.code (a + n.kind.width) (n.bodyExit a next)) := by
  cases hkind : n.kind with
  | counted bound =>
    have hbody := fresh_body (by rw [hkind]; rfl) (List.nodup_cons.1 hfresh).2
    have hexit : n.bodyExit a next = label ("loop_increment_" ++ n.id) (a + 3) := by
      simp only [Node.bodyExit, hkind]
    have honce := entersOnce_code htidy hbody
    simp only [Node.loops, hkind, List.mem_singleton] at hl
    subst hl
    simp only [Node.blocks, hkind, hexit] at hown hbelow hfresh honce ⊢
    refine ⟨hown, hbelow, hfresh, body.region_entry _ _, body.staysIn_code _ _, honce⟩
  | _ => simp [Node.loops, hkind] at hl

/-- **The loops of an outline are coded in a routine that holds its code.** -/
theorem coded_of_mem_loops {r : Routine} (htidy : o.Tidy) (hholds : r.Holds (o.code a exit))
    (h : (exit :: (o.code a exit).map BasicBlock.label).Nodup) {l : Loop}
    (hl : l ∈ o.loops a exit) : ∃ code, l.Coded r code := by
  induction o generalizing a exit with
  | ending => cases hl
  | node n body rest ihbody ihrest =>
    obtain ⟨hplain, hbody, hrest⟩ := htidy
    obtain ⟨hfresh, hblocks, hapart⟩ := fresh_node h
    obtain ⟨hholds, hown, hbelow⟩ :=
      Routine.holds_append.1 hholds |>.imp_right Routine.holds_append.1
    simp only [loops, List.mem_append] at hl
    rcases hl with hl | hl | hl
    · exact ihrest hrest hholds hfresh hl
    · refine ⟨_, coded_of_node hbody hown hbelow (List.nodup_cons.2 ⟨fun hmem => ?_, hblocks⟩) hl⟩
      exact hapart _ hmem (rest.region_entry a exit)
    · cases hloop : n.kind.isLoop with
      | true => exact ihbody hbody hbelow (fresh_body hloop hblocks) hl
      | false =>
        rw [hplain hloop] at hl
        cases hl

/-- **Every block that sets a counter is the first of a loop.** -/
theorem mem_loops_of_declare {b : BasicBlock} (hb : b ∈ o.code a exit) {id : NodeId} {v : Operand}
    (hi : (Action.declare (counterName id) v).tagged id ∈ b.instructions) :
    ∃ l ∈ o.loops a exit, l.init = b.label ∧ l.node = id := by
  induction o generalizing a exit with
  | ending => cases hb
  | node n body rest ihbody ihrest =>
    simp only [code, List.mem_append] at hb
    simp only [loops, List.mem_append]
    rcases hb with hb | hb | hb
    · obtain ⟨l, hl, heq⟩ := ihrest hb
      exact ⟨l, .inl hl, heq⟩
    · obtain ⟨l, hl, heq⟩ := Node.mem_loops_of_declare hb hi
      exact ⟨l, .inr (.inl hl), heq⟩
    · obtain ⟨l, hl, heq⟩ := ihbody hb
      exact ⟨l, .inr (.inr hl), heq⟩

end Outline

/-! ## Loops of threads -/

namespace Lowering

/-- The loops in the routine of the thread that starts at a node. -/
def threadLoops (g : Graph) (start : NodeId) : List Loop :=
  (threadOutline g start).loops 1 threadEnd

theorem coded_of_mem_threadLoops (σ : Type) [HasSink σ] {g : Graph} {start : NodeId} {l : Loop}
    (hl : l ∈ threadLoops g start) :
    ∃ code, l.Coded (compileThread (Registry.standard σ).rules g start).1 code := by
  have hkeys := (compileThread (Registry.standard σ).rules g start).1.blocks.keys_nodup
  rw [compileThread_keys] at hkeys
  refine Outline.coded_of_mem_loops (g.tidy_outline [] (some start)) (fun b hb => ?_) hkeys hl
  exact compileThread_block?_of_mem σ (List.mem_cons_of_mem _ hb)

end Lowering

end TuneBlocks
