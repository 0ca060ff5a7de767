import Mathlib.Data.Finset.Dedup
import Mathlib.Data.Finset.Insert
import TuneBlocks.Proofs.Origins
import TuneBlocks.Proofs.Splicing

/-!
# Nested chains

Lowering a chain, taken step by step: a call collects the nodes of its chain and marks them, lowers
them from the last to the first, and then removes its marks. A loop interrupts this with a call for
its body, and goes on with what that gives (`Lowering.step`). All calls share one set of marks.

From each call the steps lead to its return, with the marks it began with and the result of
`Lowering.lowerChain` (`Lowering.call_passes`). On the way every call that waits has marked a node
of its own, and no node is marked twice (`Progress.Within`). So however links run in cycles, the
calls under way never outnumber the nodes by more than one (`Lowering.calls_return`).
-/

namespace TuneBlocks

/-- How many nodes are not marked. -/
def Graph.unmarkedIn (g : Graph) (marks : Finset NodeId) : Nat :=
  (g.ids.filter (· ∉ marks)).length

theorem Graph.unmarkedIn_toFinset (g : Graph) (marks : List NodeId) :
    g.unmarkedIn marks.toFinset = unmarked g.ids marks := by
  simp only [unmarkedIn, unmarked, List.mem_toFinset]

theorem unmarked_append_le (keys more marked : List String) :
    unmarked keys (more ++ marked) ≤ unmarked keys marked := by
  refine (List.monotone_filter_right keys fun key h => ?_).length_le
  simp only [List.mem_append, not_or, Bool.decide_and, Bool.and_eq_true, decide_eq_true_eq] at h ⊢
  exact h.2

namespace Lowering

/-- A call that waits for the body of a loop. -/
structure Waiting where
  /-- The nodes it has collected. -/
  chain : List Node
  /-- Those it has yet to lower, from the last to the first. -/
  left : List Node
  loop : Node
  /-- Where control goes after the loop. -/
  next : Label
  /-- What there was before the loop. -/
  draft : Draft

/-- What the innermost call is doing. -/
inductive Activity where
  | collect (chain : List Node) (cursor : Option NodeId) (exit : Label)
  | lower (chain left : List Node) (label : Label)
  /-- Removes marks, of which those of a chain are left, then returns a label. -/
  | unmark (chain : List Node) (label : Label)

/-- The nodes that the innermost call has marked. -/
def Activity.chain : Activity → List Node
  | collect chain _ _ => chain
  | lower chain _ _ => chain
  | unmark chain _ => chain

/-- How far lowering has got. -/
structure Progress where
  activity : Activity
  /-- The calls around the innermost one, from the inside. -/
  waiting : List Waiting
  marks : Finset NodeId
  draft : Draft

namespace Progress

/-- A call begins. -/
def enter (start : Option NodeId) (exit : Label) (waiting : List Waiting) (marks : Finset NodeId)
    (d : Draft) : Progress :=
  ⟨.collect [] start exit, waiting, marks, d⟩

/-- A call lowers its nodes, of which some are left. -/
def lowering (chain left : List Node) (result : Label × Draft) (waiting : List Waiting)
    (marks : Finset NodeId) : Progress :=
  ⟨.lower chain left result.1, waiting, marks, result.2⟩

/-- A call has come to its end. -/
def leave (result : Label × Draft) (waiting : List Waiting) (marks : Finset NodeId) : Progress :=
  ⟨.unmark [] result.1, waiting, marks, result.2⟩

/-- How many calls are under way. -/
def depth (x : Progress) : Nat := x.waiting.length + 1

end Progress

section Steps

variable (rules : LoweringRules) (g : Graph)

/-- One step; the outermost call has none after its end. -/
def step : Progress → Option Progress
  | ⟨.collect chain cursor exit, waiting, marks, d⟩ =>
    match cursor.bind g.get? with
    | none => some ⟨.lower chain chain.reverse exit, waiting, marks, d⟩
    | some n =>
      if n.id ∈ marks then
        some ⟨.lower chain chain.reverse exit, waiting, marks, (warn (.cyclicChain n.id) d).2⟩
      else some ⟨.collect (chain ++ [n]) n.next exit, waiting, insert n.id marks, d⟩
  | ⟨.lower chain [] label, waiting, marks, d⟩ => some ⟨.unmark chain label, waiting, marks, d⟩
  | ⟨.lower chain (n :: left) label, waiting, marks, d⟩ =>
    if n.kind.isLoop then
      some (.enter n.body (opening n d).1 (⟨chain, left, n, label, d⟩ :: waiting) marks
        (opening n d).2)
    else some (.lowering chain left (lowerNode rules ⟨g, fun _ => pure⟩ n label d) waiting marks)
  | ⟨.unmark (n :: chain) label, waiting, marks, d⟩ =>
    some ⟨.unmark chain label, waiting, marks.erase n.id, d⟩
  | ⟨.unmark [] label, w :: waiting, marks, d⟩ =>
    -- the loop is lowered anew, now that it is known what its body comes to
    some (.lowering w.chain w.left
      (lowerNode rules ⟨g, fun _ _ _ => (label, d)⟩ w.loop w.next w.draft) waiting marks)
  | ⟨.unmark [] _, [], _, _⟩ => none

/-- What some steps lead to. -/
def steps : Nat → Progress → Option Progress
  | 0, x => some x
  | count + 1, x => (step rules g x).bind (steps count)

/-- Steps lead from one state to another, and all states on the way have a property. -/
inductive Passes (P : Progress → Prop) : Progress → Progress → Prop where
  | refl : P x → Passes P x x
  | head : P x → step rules g x = some y → Passes P y z → Passes P x z

variable {rules g} {P Q : Progress → Prop} {x y z : Progress}

theorem Passes.trans (h : Passes rules g P x y) (h' : Passes rules g P y z) :
    Passes rules g P x z := by
  induction h with
  | refl => exact h'
  | head hx hstep _ ih => exact .head hx hstep (ih h')

theorem Passes.last (h : Passes rules g P x y) : P y := by
  induction h with
  | refl hx => exact hx
  | head _ _ _ ih => exact ih

theorem Passes.mono (h : Passes rules g P x y) (hPQ : ∀ x, P x → Q x) :
    Passes rules g Q x y := by
  induction h with
  | refl hx => exact .refl (hPQ _ hx)
  | head hx hstep _ ih => exact .head (hPQ _ hx) hstep ih

theorem Passes.exists_steps (h : Passes rules g P x y) :
    ∃ count, steps rules g count x = some y ∧
      ∀ k ≤ count, ∀ z, steps rules g k x = some z → P z := by
  induction h with
  | @refl x hx =>
    refine ⟨0, rfl, fun k hk z hz => ?_⟩
    rw [Nat.le_zero.1 hk] at hz
    cases hz
    exact hx
  | @head x y z hx hstep _ ih =>
    obtain ⟨count, hcount, hway⟩ := ih
    refine ⟨count + 1, by rw [steps, hstep]; exact hcount, fun k hk u hu => ?_⟩
    cases k with
    | zero =>
      cases hu
      exact hx
    | succ k =>
      rw [steps, hstep] at hu
      exact hway k (Nat.le_of_succ_le_succ hk) u hu

theorem steps_add (count more : Nat) (x : Progress) :
    steps rules g (count + more) x = (steps rules g count x).bind (steps rules g more) := by
  induction count generalizing x with
  | zero => rw [Nat.zero_add, steps, Option.bind_some]
  | succ count ih =>
    rw [Nat.succ_add, steps, steps, Option.bind_assoc]
    exact congrArg _ (funext ih)

/-- After the last state there is none. -/
theorem le_of_steps {count k : Nat} (hlast : steps rules g count x = some y)
    (hnone : step rules g y = none) (h : steps rules g k x = some z) : k ≤ count := by
  by_contra hlt
  obtain ⟨more, rfl⟩ := Nat.exists_eq_add_of_lt (Nat.not_le.1 hlt)
  rw [Nat.add_assoc, steps_add, hlast, Option.bind_some, steps, hnone, Option.bind_none] at h
  cases h

end Steps

/-! ## Marks -/

/-- The nodes that a call has marked: none twice, and none that was marked before. -/
structure Marked (before : List NodeId) (chain : List Node) : Prop where
  nodup : (chain.map Node.id).Nodup
  fresh : ∀ id ∈ chain.map Node.id, id ∉ before

/-- The ids that are marked by the innermost call and some around it. -/
def Progress.marked (x : Progress) (inner : List Waiting) : List NodeId :=
  x.activity.chain.map Node.id ++ inner.flatMap fun w => w.chain.map Node.id

/-- A state on the way of a call that began with some nodes marked. -/
structure Progress.Within (g : Graph) (x : Progress) (inner outer : List Waiting)
    (before : List NodeId) : Prop where
  waiting : x.waiting = inner ++ outer
  nodup : (x.marked inner).Nodup
  fresh : ∀ id ∈ x.marked inner, id ∉ before
  marks : x.marks = (x.marked inner ++ before).toFinset
  /-- Each call more takes at least one node. -/
  depth_le : x.depth + g.unmarkedIn x.marks ≤ outer.length + 1 + unmarked g.ids before

section Within

variable {g : Graph} {x : Progress} {inner outer : List Waiting} {before : List NodeId}
  {front back : List Node}

theorem Marked.left (h : Marked before (front ++ back)) : Marked before front where
  nodup := by
    have hnodup := h.nodup
    rw [List.map_append] at hnodup
    exact (List.nodup_append.1 hnodup).1
  fresh id hid := h.fresh id (by rw [List.map_append]; exact List.mem_append_left _ hid)

/-- What is on the way of a call is also on the way of the call that waits for it. -/
theorem Progress.Within.below {w : Waiting} (hw : Marked before w.chain)
    (hlt : unmarked g.ids (w.chain.map Node.id ++ before) < unmarked g.ids before)
    (h : x.Within g inner (w :: outer) (w.chain.map Node.id ++ before)) :
    x.Within g (inner ++ [w]) outer before := by
  have hmarked : x.marked (inner ++ [w]) = x.marked inner ++ w.chain.map Node.id := by
    simp only [marked, List.flatMap_append, List.flatMap_singleton, List.append_assoc]
  refine ⟨?_, ?_, ?_, ?_, ?_⟩
  · rw [h.waiting, List.append_assoc]
    rfl
  · rw [hmarked, List.nodup_append]
    refine ⟨h.nodup, hw.nodup, fun id hid id' hid' heq => ?_⟩
    exact h.fresh id hid (List.mem_append_left _ (heq ▸ hid'))
  · rw [hmarked]
    refine List.forall_mem_append.2 ⟨fun id hid hbefore => ?_, hw.fresh⟩
    exact h.fresh id hid (List.mem_append_right _ hbefore)
  · rw [h.marks, hmarked, List.append_assoc]
  · have hdepth := h.depth_le
    rw [List.length_cons] at hdepth
    omega

/-- A call that is waited for has fewer nodes left to it. -/
theorem Progress.Within.unmarkedIn_lt (h : x.Within g inner outer before) (hinner : inner ≠ []) :
    g.unmarkedIn x.marks < unmarked g.ids before := by
  have hdepth := h.depth_le
  have hlength := List.length_pos_iff.2 hinner
  rw [depth, h.waiting, List.length_append] at hdepth
  omega

end Within

/-! ## The steps of a call -/

section Calls

variable {rules : LoweringRules} {g : Graph} {before : List NodeId} {waiting : List Waiting}

/-- A state on the way of a call. -/
def OnTheWay (g : Graph) (waiting : List Waiting) (before : List NodeId) (x : Progress) : Prop :=
  ∃ inner, x.Within g inner waiting before

/-- The call itself, while it waits for none. -/
theorem Marked.onTheWay {chain : List Node} (h : Marked before chain) {activity : Activity}
    (hchain : activity.chain = chain) {marks : Finset NodeId}
    (hmarks : marks = (chain.map Node.id ++ before).toFinset) (d : Draft) :
    OnTheWay g waiting before ⟨activity, waiting, marks, d⟩ := by
  have hmarked : Progress.marked ⟨activity, waiting, marks, d⟩ [] = chain.map Node.id := by
    rw [Progress.marked, hchain, List.flatMap_nil, List.append_nil]
  refine ⟨[], rfl, ?_, ?_, ?_, ?_⟩
  · rw [hmarked]
    exact h.nodup
  · rw [hmarked]
    exact h.fresh
  · rw [hmarked]
    exact hmarks
  · have hle := unmarked_append_le g.ids (chain.map Node.id) before
    rw [hmarks, Graph.unmarkedIn_toFinset]
    exact Nat.add_le_add_left hle _

theorem step_collect_of_chain_nil {active : List NodeId} {chain : List Node}
    {cursor cut : Option NodeId} (h : g.chain active cursor = ([], cut)) (exit : Label)
    (d : Draft) :
    step rules g ⟨.collect chain cursor exit, waiting, active.toFinset, d⟩ =
      some ⟨.lower chain chain.reverse exit, waiting, active.toFinset, (warnCut cut d).2⟩ := by
  unfold Graph.chain at h
  split at h
  · cases h
    rfl
  · rename_i id
    split at h
    · rename_i hget
      cases h
      simp only [step, Option.bind_some, hget]
      rfl
    · rename_i n hget
      split at h
      · rename_i hid
        cases h
        obtain rfl := Graph.id_of_get? hget
        have hmark : n.id ∈ active.toFinset := List.mem_toFinset.2 hid
        simp only [step, Option.bind_some, hget, hmark, ↓reduceIte]
        rfl
      · cases h

/-- Collecting the nodes of a chain, of which some have been found. -/
theorem collect_passes {active : List NodeId} {chain nodes : List Node}
    {cursor cut : Option NodeId} (h : g.chain active cursor = (nodes, cut))
    (hchain : Marked before (chain ++ nodes))
    (hactive : active.toFinset = (chain.map Node.id ++ before).toFinset) (exit : Label)
    (d : Draft) :
    Passes rules g (OnTheWay g waiting before)
      ⟨.collect chain cursor exit, waiting, active.toFinset, d⟩
      ⟨.lower (chain ++ nodes) (chain ++ nodes).reverse exit, waiting,
        ((chain ++ nodes).map Node.id ++ before).toFinset, (warnCut cut d).2⟩ := by
  induction nodes generalizing active chain cursor with
  | nil =>
    rw [List.append_nil] at hchain ⊢
    refine .head (hchain.onTheWay rfl hactive _) (step_collect_of_chain_nil h exit d) ?_
    rw [hactive]
    exact .refl (hchain.onTheWay rfl rfl _)
  | cons n rest ih =>
    obtain ⟨rfl, hget, hn, hrest⟩ := Graph.chain_cons h
    have hstep : step rules g ⟨.collect chain (some n.id) exit, waiting, active.toFinset, d⟩ =
        some ⟨.collect (chain ++ [n]) n.next exit, waiting, (n.id :: active).toFinset, d⟩ := by
      have hmark : n.id ∉ active.toFinset := by rwa [List.mem_toFinset]
      simp only [step, Option.bind_some, hget, hmark, ↓reduceIte, List.toFinset_cons]
    have hactive' : (n.id :: active).toFinset =
        ((chain ++ [n]).map Node.id ++ before).toFinset := by
      rw [List.toFinset_cons, hactive]
      ext id
      simp only [Finset.mem_insert, List.mem_toFinset, List.map_append, List.map_singleton,
        List.mem_append, List.mem_singleton]
      tauto
    refine .head (hchain.left.onTheWay rfl hactive d) hstep ?_
    have hchain' : Marked before ((chain ++ [n]) ++ rest) := by rwa [List.append_cons] at hchain
    rw [List.append_cons chain n rest]
    exact ih hrest hchain' hactive'

/-- Collecting all nodes of a chain. -/
theorem enter_passes {start cut : Option NodeId} {nodes : List Node}
    (h : g.chain before start = (nodes, cut)) (hnodes : Marked before nodes) (exit : Label)
    (d : Draft) :
    Passes rules g (OnTheWay g waiting before) (.enter start exit waiting before.toFinset d)
      (.lowering nodes nodes.reverse (exit, (warnCut cut d).2) waiting
        (nodes.map Node.id ++ before).toFinset) :=
  collect_passes h (hnodes : Marked before ([] ++ nodes)) rfl exit d

/-- Removing the marks of a chain. -/
theorem unmark_passes {chain : List Node} (h : Marked before chain) (label : Label) (d : Draft) :
    Passes rules g (OnTheWay g waiting before)
      ⟨.unmark chain label, waiting, (chain.map Node.id ++ before).toFinset, d⟩
      (.leave (label, d) waiting before.toFinset) := by
  induction chain with
  | nil => exact .refl (h.onTheWay (rfl : (Activity.unmark [] label).chain = []) rfl d)
  | cons n rest ih =>
    have hnodup := List.nodup_cons.1 h.nodup
    have hn : n.id ∉ (rest.map Node.id ++ before).toFinset := by
      rw [List.mem_toFinset, List.mem_append, not_or]
      exact ⟨hnodup.1, h.fresh n.id List.mem_cons_self⟩
    refine .head (h.onTheWay rfl rfl d) ?_
      (ih ⟨hnodup.2, fun id hid => h.fresh id (List.mem_cons_of_mem _ hid)⟩)
    rw [step, List.map_cons, List.cons_append, List.toFinset_cons, Finset.erase_insert hn]

end Calls

theorem lowerNodes_concat (lower : Node → Label → Lowering Label) (exit : Label)
    (front : List Node) (n : Node) (d : Draft) :
    lowerNodes lower exit (front ++ [n]) d =
      lowerNodes lower (lower n exit d).1 front (lower n exit d).2 :=
  lowerNodes_append lower exit front [n] d

section Standard

variable {σ : Type} [HasSink σ] {g : Graph} {before : List NodeId} {waiting : List Waiting}

/-- A loop needs nothing of the lowering of chains but what its body comes to. -/
theorem lowerNode_of_isLoop {n : Node} (h : n.kind.isLoop = true)
    (lowerChain : Option NodeId → Label → Lowering Label) (next : Label) (d : Draft) :
    lowerNode (Registry.standard σ).rules ⟨g, lowerChain⟩ n next d =
      lowerNode (Registry.standard σ).rules
        ⟨g, fun _ _ _ => lowerChain n.body (opening n d).1 (opening n d).2⟩ n next d := by
  obtain ⟨finish, hfinish⟩ := lowerKind_calls g n next d
  simp only [lowerNode_standard, hfinish, h, ↓reduceIte]

theorem lowerNode_of_not_isLoop {n : Node} (h : n.kind.isLoop = false)
    (lowerChain : Option NodeId → Label → Lowering Label) (next : Label) (d : Draft) :
    lowerNode (Registry.standard σ).rules ⟨g, lowerChain⟩ n next d =
      lowerNode (Registry.standard σ).rules ⟨g, fun _ => pure⟩ n next d := by
  obtain ⟨finish, hfinish⟩ := lowerKind_calls g n next d
  simp only [lowerNode_standard, hfinish, h, Bool.false_eq_true, ↓reduceIte]

/-- From a call to its return: the marks are those from before, the result is that of the chain. -/
def CallPasses (σ : Type) [HasSink σ] (g : Graph) (before : List NodeId) : Prop :=
  ∀ start exit waiting d, Passes (Registry.standard σ).rules g (OnTheWay g waiting before)
    (.enter start exit waiting before.toFinset d)
    (.leave (lowerChain (Registry.standard σ).rules g before start exit d) waiting
      before.toFinset)

section Lower

variable {chain : List Node} (hchain : Marked before chain)
  (hlt : unmarked g.ids (chain.map Node.id ++ before) < unmarked g.ids before)
  (hcall : CallPasses σ g (chain.map Node.id ++ before))
include hchain hlt hcall

/-- Lowering a node, given that a call for its body returns. -/
theorem lowerNode_passes (waiting : List Waiting) (n : Node) (left : List Node)
    (result : Label × Draft) :
    Passes (Registry.standard σ).rules g (OnTheWay g waiting before)
      (.lowering chain (n :: left) result waiting (chain.map Node.id ++ before).toFinset)
      (.lowering chain left (lowerNode (Registry.standard σ).rules
        ⟨g, lowerChain (Registry.standard σ).rules g (chain.map Node.id ++ before)⟩ n result.1
        result.2) waiting (chain.map Node.id ++ before).toFinset) := by
  have hway (left : List Node) (result : Label × Draft) : OnTheWay g waiting before
      (.lowering chain left result waiting (chain.map Node.id ++ before).toFinset) :=
    hchain.onTheWay rfl rfl _
  obtain ⟨label, d⟩ := result
  cases hloop : n.kind.isLoop with
  | false =>
    rw [lowerNode_of_not_isLoop hloop]
    refine .head (hway _ _) ?_ (.refl (hway _ _))
    simp only [Progress.lowering, step, hloop, Bool.false_eq_true, ↓reduceIte]
  | true =>
    rw [lowerNode_of_isLoop hloop]
    have hbody := (hcall n.body (opening n d).1 (⟨chain, left, n, label, d⟩ :: waiting)
      (opening n d).2).mono (Q := OnTheWay g waiting before)
      fun x ⟨inner, hx⟩ => ⟨_, hx.below hchain hlt⟩
    refine .head (hway _ _) ?_ (hbody.trans (.head ?_ ?_ (.refl (hway _ _))))
    · simp only [Progress.lowering, step, hloop, ↓reduceIte]
    · exact hbody.last
    · simp only [Progress.leave, step, Prod.mk.eta]

/-- Lowering the nodes of a chain that are left. -/
theorem lowerNodes_passes (waiting : List Waiting) (left : List Node) (result : Label × Draft) :
    Passes (Registry.standard σ).rules g (OnTheWay g waiting before)
      (.lowering chain left result waiting (chain.map Node.id ++ before).toFinset)
      (.lowering chain [] (lowerNodes (lowerNode (Registry.standard σ).rules
        ⟨g, lowerChain (Registry.standard σ).rules g (chain.map Node.id ++ before)⟩) result.1
        left.reverse result.2) waiting (chain.map Node.id ++ before).toFinset) := by
  induction left generalizing result with
  | nil => exact .refl (hchain.onTheWay rfl rfl result.2)
  | cons n left ih =>
    rw [List.reverse_cons, lowerNodes_concat]
    exact (lowerNode_passes hchain hlt hcall waiting n left result).trans (ih _)

end Lower

theorem lowerChain_apply (rules : LoweringRules) {active : List NodeId} {start cut : Option NodeId}
    {nodes : List Node} (h : g.chain active start = (nodes, cut)) (exit : Label) (d : Draft) :
    lowerChain rules g active start exit d =
      lowerNodes (lowerNode rules ⟨g, lowerChain rules g (nodes.map Node.id ++ active)⟩) exit nodes
        (warnCut cut d).2 := by
  rw [lowerChain_eq rules exit h]
  rfl

theorem marked_of_chain {start cut : Option NodeId} {nodes : List Node}
    (h : g.chain before start = (nodes, cut)) : Marked before nodes where
  nodup := Graph.nodup_chain h
  fresh id hid := by
    obtain ⟨n, hn, rfl⟩ := List.mem_map.1 hid
    exact (Graph.mem_chain h hn).2.1

/-- **Every call returns.** -/
theorem call_passes (before : List NodeId) : CallPasses σ g before := by
  -- a chain with a loop in it leaves fewer nodes to the body
  induction hm : unmarked g.ids before using Nat.strongRecOn generalizing before with
  | ind m ih =>
    subst hm
    intro start exit waiting d
    rcases hchain : g.chain before start with ⟨nodes, cut⟩
    have hmarked := marked_of_chain hchain
    have hlower : Passes (Registry.standard σ).rules g (OnTheWay g waiting before)
        (.lowering nodes nodes.reverse (exit, (warnCut cut d).2) waiting
          (nodes.map Node.id ++ before).toFinset)
        (.lowering nodes [] (lowerChain (Registry.standard σ).rules g before start exit d) waiting
          (nodes.map Node.id ++ before).toFinset) := by
      rw [lowerChain_apply _ hchain]
      cases nodes with
      | nil => exact .refl (hmarked.onTheWay rfl rfl _)
      | cons n rest =>
        have hlt := Graph.unmarked_chain hchain List.mem_cons_self
        have hpasses := lowerNodes_passes hmarked hlt (ih _ hlt _ rfl) waiting (n :: rest).reverse
          (exit, (warnCut cut d).2)
        rwa [List.reverse_reverse] at hpasses
    exact ((enter_passes hchain hmarked exit d).trans hlower).trans
      (.head hlower.last rfl (unmark_passes hmarked _ _))

end Standard

/-- **Calls return on every graph, and leave the marks as they were.** A thread begins with none. -/
theorem calls_return (σ : Type) [HasSink σ] (g : Graph) :
    let rules := (Registry.standard σ).rules
    (∀ start exit waiting before d,
      let first := Progress.enter start exit waiting before.toFinset d
      ∃ count,
        steps rules g count first =
          some (.leave (lowerChain rules g before start exit d) waiting before.toFinset) ∧
        ∀ k ≤ count, ∀ x, steps rules g k first = some x → ∃ inner,
          x.Within g inner waiting before ∧
          (inner ≠ [] → g.unmarkedIn x.marks < unmarked g.ids before)) ∧
    ∀ start,
      let (exit, d) := newBlock "thread_end" .empty
      let first := Progress.enter (some start) exit [] ∅ d
      let last := Progress.leave (lowerThread rules g start .empty) [] ∅
      (∃ count, steps rules g count first = some last) ∧ step rules g last = none ∧
      ∀ k x, steps rules g k first = some x → x.depth ≤ g.nodes.length + 1 := by
  intro rules
  have hcalls (start : Option NodeId) (exit : Label) (waiting : List Waiting)
      (before : List NodeId) (d : Draft) :=
    (call_passes (σ := σ) (g := g) before start exit waiting d).exists_steps
  refine ⟨fun start exit waiting before d => ?_, fun start => ?_⟩
  · obtain ⟨count, hcount, hway⟩ := hcalls start exit waiting before d
    refine ⟨count, hcount, fun k hk x hx => ?_⟩
    obtain ⟨inner, hx⟩ := hway k hk x hx
    exact ⟨inner, hx, hx.unmarkedIn_lt⟩
  · obtain ⟨count, hcount, hway⟩ := hcalls (some start) (newBlock "thread_end" .empty).1 [] []
      (newBlock "thread_end" .empty).2
    refine ⟨⟨count, hcount⟩, rfl, fun k x hx => ?_⟩
    obtain ⟨inner, hwithin⟩ := hway k (le_of_steps hcount rfl hx) x hx
    have hdepth := hwithin.depth_le
    have hnodes : unmarked g.ids [] ≤ g.nodes.length := by
      have hfilter := List.length_filter_le (· ∉ ([] : List NodeId)) g.ids
      rwa [Graph.ids, List.length_map] at hfilter
    rw [List.length_nil] at hdepth
    omega

/-- A loop that follows itself and is its own body. -/
def ouroboros : Graph :=
  ⟨[⟨"a", "forever", ∅, some "a", some "a"⟩], by decide⟩

/-- Its body is cut by a call of its own, so that there are two calls for one node. -/
theorem calls_return_ouroboros :
    let rules := (Registry.standard Sink).rules
    let (exit, d) := newBlock "thread_end" .empty
    let first := Progress.enter (some "a") exit [] ∅ d
    (∃ k, (steps rules ouroboros k first).map Progress.depth = some 2) ∧
    ∀ k x, steps rules ouroboros k first = some x → x.depth ≤ 2 :=
  ⟨⟨3, by decide +kernel⟩, ((calls_return Sink ouroboros).2 "a").2.2⟩

end Lowering

end TuneBlocks
