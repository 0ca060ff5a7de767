import TuneBlocks.Proofs.Compiled
import TuneBlocks.Proofs.Steps

/-!
# The meaning of a graph

`Graph.walk` executes a graph as it stands, without compiling it: it follows the links of chains,
repeats the bodies of loops and does what the nodes say. A walk may go on for ever, so it is given
fuel; `Walk.effects` is what it has done by then.

The code of a graph without cut chains follows the walk (`walk_tracked`): what the walk has done
when its fuel is spent is what the compiled thread has done after some instructions, and the more
fuel the more instructions.
-/

namespace TuneBlocks

/-! ## Walks -/

/-- What a walk has done, and the memory it has ended with if it has ended. -/
structure Walk where
  effects : List Effect
  final : Option Memory
deriving DecidableEq

namespace Walk

/-- The walk that does something at once. -/
def act (es : List Effect) (m : Memory) : Walk := ⟨es, some (m.performAll es)⟩

/-- Goes on where a walk has ended. -/
def andThen (w : Walk) (next : Memory → Walk) : Walk :=
  match w.final with
  | none => w
  | some m => ⟨w.effects ++ (next m).effects, (next m).final⟩

end Walk

/-- A part of a graph to walk. -/
inductive Task where
  | chain (link : Option NodeId)
  /-- The passes of a counted loop that are left. -/
  | passes (n : Node) (bound : Operand)
  /-- The rounds of an endless loop. -/
  | rounds (n : Node)

open Lowering (counterName)

/-- Does what a node says, given how to walk its loop. -/
def Node.walk (n : Node) (loop : Task → Memory → Walk) (m : Memory) : Walk :=
  match n.kind with
  | .place | .unknown => .act [] m
  | .act a => .act (a.effects m) m
  | .counted bound =>
    (Walk.act [.declare (counterName n.id) (.number 0)] m).andThen (loop (.passes n bound))
  | .forever => loop (.rounds n) m

/-- Walks a part of the graph, for as long as the fuel lasts. -/
def Graph.walk (g : Graph) : (fuel : Nat) → Task → Memory → Walk
  | 0, _, _ => ⟨[], none⟩
  | fuel + 1, .chain link, m =>
    match link.bind g.get? with
    | none => .act [] m
    | some n => (n.walk (g.walk fuel) m).andThen (g.walk fuel (.chain n.next))
  | fuel + 1, .passes n bound, m =>
    -- the bound is looked up again before every pass
    if (m.lookup (counterName n.id)).compare .lt (m.resolve bound) then
      (g.walk fuel (.chain n.body) m).andThen fun m =>
        (Walk.act [.assign (counterName n.id) ((m.lookup (counterName n.id)).add (.number 1))]
          m).andThen (g.walk fuel (.passes n bound))
    else .act [] m
  | fuel + 1, .rounds n, m =>
    (g.walk fuel (.chain n.body) m).andThen (g.walk fuel (.rounds n))

/-! ## The steps of blocks -/

/-- The blocks are in the routine. -/
def Routine.Holds (r : Routine) (code : List BasicBlock) : Prop :=
  ∀ b ∈ code, r.block? b.label = some b

theorem Routine.holds_cons {r : Routine} {b : BasicBlock} {code : List BasicBlock} :
    r.Holds (b :: code) ↔ r.block? b.label = some b ∧ r.Holds code :=
  List.forall_mem_cons

theorem Routine.holds_append {r : Routine} {code code' : List BasicBlock} :
    r.Holds (code ++ code') ↔ r.Holds code ∧ r.Holds code' :=
  List.forall_mem_append

namespace Interpreter

variable {σ : Type} (registry : Registry σ) {r : Routine} (m : Memory) {label target : Label}

theorem instruction?_of_block {instructions : List Instruction}
    (hb : r.block? label = some ⟨label, instructions⟩) (ip : Nat) :
    r.instruction? ⟨label, ip, m⟩ = instructions[ip]? := by
  simp only [Routine.instruction?, hb, Option.bind_some]

theorem after_of_not_terminator {a : Action} (ha : a.isTerminator = false) (p : Position) :
    p.after registry a =
      ⟨p.block, p.ip + 1, p.memory.performAll (a.effectsIn registry p.memory)⟩ := by
  cases a with
  | jump | branch => cases ha
  | _ => rfl

theorem after_of_terminator {a : Action} (ha : a.isTerminator = true) (p : Position) :
    ∃ t ∈ a.targets, p.after registry a = ⟨t, 0, p.memory⟩ := by
  cases a with
  | jump t => exact ⟨t, List.mem_singleton_self t, rfl⟩
  | branch op left right ifTrue ifFalse =>
    refine ⟨_, ?_, rfl⟩
    split
    · exact List.mem_cons_self
    · exact List.mem_cons_of_mem _ (List.mem_singleton_self _)
  | _ => cases ha

/-- A block that only jumps. -/
theorem steps_jump {source : Option NodeId}
    (hb : r.block? label = some ⟨label, [⟨.jump target, source⟩]⟩) :
    Steps registry r 1 ⟨label, 0, m⟩ [] ⟨target, 0, m⟩ :=
  .single (instruction?_of_block m hb 0)

/-- A block that does something and jumps. -/
theorem steps_act {a : Action} {source source' : Option NodeId}
    (hb : r.block? label = some ⟨label, [⟨a, source⟩, ⟨.jump target, source'⟩]⟩)
    (ha : a.isTerminator = false) :
    Steps registry r 2 ⟨label, 0, m⟩ (a.effectsIn registry m)
      ⟨target, 0, m.performAll (a.effectsIn registry m)⟩ := by
  have hact : Steps registry r 1 ⟨label, 0, m⟩ _ _ := .single (instruction?_of_block m hb 0)
  rw [after_of_not_terminator registry ha] at hact
  have hjump : Steps registry r 1 _ [] ⟨target, 0, m.performAll (a.effectsIn registry m)⟩ :=
    .single (instruction?_of_block (m.performAll (a.effectsIn registry m)) hb 1)
  have hboth := hact.trans hjump
  rwa [List.append_nil] at hboth

/-- A block that only branches. -/
theorem steps_branch {source : Option NodeId} {op : Comparison} {left : String} {right : Operand}
    {other : Label}
    (hb : r.block? label = some ⟨label, [⟨.branch op left right target other, source⟩]⟩) :
    Steps registry r 1 ⟨label, 0, m⟩ []
      ⟨if (m.lookup left).compare op (m.resolve right) then target else other, 0, m⟩ :=
  .single (instruction?_of_block m hb 0)

end Interpreter

/-! ## Following a walk -/

open Interpreter (Steps)

section
variable {σ : Type} {registry : Registry σ} {r : Routine} {p q : Position} {mid exit : Label}
  {fuel slack : Nat} {w : Walk}

/-- The routine does from a position on what the walk has done. Where the walk has ended it comes to
an exit. Otherwise it executes instructions for the fuel that was spent, up to some slack. -/
def Walk.Tracked (w : Walk) (registry : Registry σ) (r : Routine) (p : Position) (exit : Label)
    (fuel slack : Nat) : Prop :=
  ∃ n q, Steps registry r n p w.effects q ∧
    match w.final with
    | none => fuel ≤ n + slack
    | some m => q = ⟨exit, 0, m⟩

namespace Walk.Tracked

theorem mono (h : w.Tracked registry r p exit fuel slack)
    (hle : fuel' + slack ≤ fuel + slack') : w.Tracked registry r p exit fuel' slack' := by
  obtain ⟨n, q, hsteps, hend⟩ := h
  refine ⟨n, q, hsteps, ?_⟩
  split
  · rename_i hfinal
    simp only [hfinal] at hend
    omega
  · rename_i hfinal
    simp only [hfinal] at hend
    exact hend

theorem act {m : Memory} (h : Steps registry r n p es ⟨exit, 0, m.performAll es⟩) :
    (Walk.act es m).Tracked registry r p exit fuel slack :=
  ⟨n, _, h, rfl⟩

/-- Instructions before a walk pay for fuel. -/
theorem of_steps (h : Steps registry r n p es q) (hw : w.Tracked registry r q exit fuel slack) :
    Walk.Tracked ⟨es ++ w.effects, w.final⟩ registry r p exit (fuel + n) slack := by
  obtain ⟨k, q', hsteps, hend⟩ := hw
  refine ⟨n + k, q', h.trans hsteps, ?_⟩
  cases hfinal : w.final with
  | none =>
    simp only [hfinal] at hend ⊢
    omega
  | some m =>
    simp only [hfinal] at hend ⊢
    exact hend

theorem of_silent_steps (h : Steps registry r n p [] q)
    (hw : w.Tracked registry r q exit fuel slack) :
    w.Tracked registry r p exit (fuel + n) slack :=
  of_steps h hw

theorem andThen {next : Memory → Walk} (hw : w.Tracked registry r p mid fuel slack)
    (hnext : ∀ m, (next m).Tracked registry r ⟨mid, 0, m⟩ exit fuel slack) :
    (w.andThen next).Tracked registry r p exit fuel slack := by
  obtain ⟨n, q, hsteps, hend⟩ := hw
  unfold Walk.andThen
  cases hfinal : w.final with
  | none =>
    simp only [hfinal] at hend ⊢
    exact ⟨n, q, hsteps, by simp only [hfinal]; exact hend⟩
  | some m =>
    simp only [hfinal] at hend ⊢
    subst hend
    exact (of_steps hsteps (hnext m)).mono (by omega)

end Walk.Tracked

end

/-! ## The code of a graph -/

open Draft (label)

/-- The nodes of an outline. A walk may spend fuel on them for which no instruction is executed. -/
def Outline.weight : Outline → Nat
  | .ending _ => 0
  | .node _ body rest => body.weight + rest.weight + 1

/-- The body of a loop and the blocks around it are in the routine. -/
structure Node.Coded (g : Graph) (r : Routine) (n : Node) (a : Nat) (next : Label)
    (body : Outline) : Prop where
  follows : n.kind.isLoop = true → Outline.Follows g n.body body
  own : r.Holds (n.blocks a next (body.entry (a + n.kind.width) (n.bodyExit a next)))
  below : r.Holds (body.code (a + n.kind.width) (n.bodyExit a next))

/-- The code of a task is in the routine, between two labels. -/
inductive Task.Coded (g : Graph) (r : Routine) :
    Task → (entry exit : Label) → (weight : Nat) → Prop
  | chain : Outline.Follows g link o → r.Holds (o.code a exit) →
    Coded g r (.chain link) (o.entry a exit) exit o.weight
  | passes : n.kind = .counted bound → n.Coded g r a next body →
    Coded g r (.passes n bound) (label ("loop_cond_" ++ n.id) (a + 2)) next body.weight
  | rounds : n.kind = .forever → n.Coded g r a next body →
    Coded g r (.rounds n) (n.entry a next) next body.weight

theorem Node.Coded.body_coded {g : Graph} {r : Routine} {n : Node} {a : Nat} {next : Label}
    {body : Outline} (h : n.Coded g r a next body) (hloop : n.kind.isLoop = true) :
    Task.Coded g r (.chain n.body) (body.entry (a + n.kind.width) (n.bodyExit a next))
      (n.bodyExit a next) body.weight :=
  .chain (h.follows hloop) h.below

/-- The calls of nodes are answered. -/
theorem Node.isSome_handler?_of_kind (σ : Type) [HasSink σ] {n : Node} {name : String}
    {args : List Operand} (h : n.kind = .act (.call name args)) :
    ((Registry.standard σ).handler? name).isSome = true := by
  unfold Node.kind at h
  split at h
  all_goals cases h
  all_goals
    rename_i htype
    rw [Registry.handler?_standard, htype]
    rfl

theorem Node.effectsIn_of_kind (σ : Type) [HasSink σ] {n : Node} {a : Action}
    (h : n.kind = .act a) (m : Memory) :
    a.effectsIn (Registry.standard σ) m = a.effects m := by
  cases a with
  | call name args => exact if_pos (isSome_handler?_of_kind σ h)
  | _ => rfl

namespace Graph

variable {σ : Type} [HasSink σ] {g : Graph} {r : Routine} {fuel : Nat}

/-- Every walk with this fuel is followed by its code. -/
def WalksTracked (σ : Type) [HasSink σ] (g : Graph) (r : Routine) (fuel : Nat) : Prop :=
  ∀ {task entry exit weight}, Task.Coded g r task entry exit weight →
    ∀ m, (g.walk fuel task m).Tracked (Registry.standard σ) r ⟨entry, 0, m⟩ exit fuel weight

theorem node_tracked (ih : WalksTracked σ g r fuel) {n : Node} {a : Nat} {next : Label}
    {body : Outline} (h : n.Coded g r a next body) (m : Memory) :
    (n.walk (g.walk fuel) m).Tracked (Registry.standard σ) r ⟨n.entry a next, 0, m⟩ next fuel
      body.weight := by
  have hown := h.own
  unfold Node.walk
  cases hkind : n.kind with
  | place =>
    simp only [Node.blocks, hkind, Routine.holds_cons] at hown
    simp only [Node.entry, hkind]
    exact .act (Interpreter.steps_jump _ m hown.1)
  | act x =>
    simp only [Node.blocks, hkind, Routine.holds_cons] at hown
    simp only [Node.entry, hkind]
    have hsteps := Interpreter.steps_act (Registry.standard σ) m hown.1
      (Node.isTerminator_of_kind hkind)
    rw [Node.effectsIn_of_kind σ hkind] at hsteps
    exact .act hsteps
  | counted bound =>
    simp only [Node.blocks, hkind, Routine.holds_cons] at hown
    simp only [Node.entry, hkind]
    have hinit := Interpreter.steps_act (Registry.standard σ) m hown.1 rfl
    exact (Walk.Tracked.act hinit).andThen (ih (.passes hkind h))
  | forever => exact ih (.rounds hkind h) m
  | unknown =>
    simp only [Node.entry, hkind]
    exact .act .refl

theorem chain_tracked (ih : WalksTracked σ g r fuel) {link : Option NodeId} {o : Outline}
    {a : Nat} {exit : Label} (hfollows : Outline.Follows g link o)
    (hholds : r.Holds (o.code a exit)) (m : Memory) :
    (g.walk (fuel + 1) (.chain link) m).Tracked (Registry.standard σ) r
      ⟨o.entry a exit, 0, m⟩ exit (fuel + 1) o.weight := by
  cases hfollows with
  | ending hlink =>
    simp only [walk, hlink]
    exact .act .refl
  | @node n body rest hget hbody hrest =>
    obtain ⟨hholds, hown, hbelow⟩ :=
      Routine.holds_append.1 hholds |>.imp_right Routine.holds_append.1
    simp only [walk, Option.bind_some, hget]
    have hnode := node_tracked ih ⟨hbody, hown, hbelow⟩ m
    have hnext := ih (.chain hrest hholds)
    -- a node without code costs fuel but no instruction: its place in the weight makes up for it
    refine (hnode.mono ?_).andThen fun m' => (hnext m').mono ?_
    · rw [Outline.weight]
      omega
    · rw [Outline.weight]
      omega

theorem passes_tracked (ih : WalksTracked σ g r fuel) {n : Node} {bound : Operand} {a : Nat}
    {next : Label} {body : Outline} (hkind : n.kind = .counted bound)
    (h : n.Coded g r a next body) (m : Memory) :
    (g.walk (fuel + 1) (.passes n bound) m).Tracked (Registry.standard σ) r
      ⟨label ("loop_cond_" ++ n.id) (a + 2), 0, m⟩ next (fuel + 1) body.weight := by
  have hbody := h.body_coded (by rw [hkind]; rfl)
  have hown := h.own
  simp only [Node.blocks, hkind, Routine.holds_cons] at hown
  obtain ⟨-, hcond, hincrement, -⟩ := hown
  have htest := Interpreter.steps_branch (Registry.standard σ) m hcond
  unfold walk
  split
  · -- one more pass: the test, the body, the counter and then the passes that are left
    rename_i hless
    rw [if_pos hless] at htest
    rw [hkind] at hbody
    refine .of_silent_steps htest ((ih hbody m).andThen fun m' => ?_)
    have hcount := Interpreter.steps_act (Registry.standard σ) m' hincrement rfl
    simp only [Node.bodyExit, hkind]
    exact (Walk.Tracked.act hcount).andThen (ih (.passes hkind h))
  · rename_i hless
    rw [if_neg hless] at htest
    exact .act htest

theorem rounds_tracked (ih : WalksTracked σ g r fuel) {n : Node} {a : Nat} {next : Label}
    {body : Outline} (hkind : n.kind = .forever) (h : n.Coded g r a next body) (m : Memory) :
    (g.walk (fuel + 1) (.rounds n) m).Tracked (Registry.standard σ) r
      ⟨n.entry a next, 0, m⟩ next (fuel + 1) body.weight := by
  have hbody := h.body_coded (by rw [hkind]; rfl)
  have hown := h.own
  simp only [Node.blocks, hkind, Routine.holds_cons] at hown
  have hjump := Interpreter.steps_jump (Registry.standard σ) m hown.1
  have hentry : n.entry a next = n.bodyExit a next := by
    simp only [Node.entry, Node.bodyExit, hkind]
  have hrounds := ih (.rounds hkind h)
  rw [hkind] at hbody
  rw [hentry] at hrounds ⊢
  simp only [Node.bodyExit, hkind] at hbody hjump hrounds ⊢
  unfold walk
  exact .of_silent_steps hjump ((ih hbody m).andThen hrounds)

/-- **The code of a graph follows its walk.** -/
theorem walk_tracked (σ : Type) [HasSink σ] (g : Graph) (r : Routine) (fuel : Nat) :
    WalksTracked σ g r fuel := by
  induction fuel with
  | zero => exact fun _ m => ⟨0, _, .refl, Nat.zero_le _⟩
  | succ fuel ih =>
    intro task entry exit weight h m
    cases h with
    | chain hfollows hholds => exact chain_tracked ih hfollows hholds m
    | passes hkind h => exact passes_tracked ih hkind h m
    | rounds hkind h => exact rounds_tracked ih hkind h m

end Graph

end TuneBlocks
