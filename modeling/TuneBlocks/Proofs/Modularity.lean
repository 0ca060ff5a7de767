import TuneBlocks.Proofs.Compiled

/-!
# Threads are compiled apart

What a thread is compiled to depends on the nodes that links lead to from its start node, and on
nothing else of the graph: neither on other nodes nor on the order of the document
(`outline_agrees`). Threads that are compiled together are compiled as each is alone
(`routines_compile`).
-/

namespace TuneBlocks

namespace Graph

/-- The ids that links lead to from an id, itself included. There may be no node under them. -/
inductive Reaches (g : Graph) (start : NodeId) : NodeId → Prop
  | refl : Reaches g start start
  | link : Reaches g start n.id → g.get? n.id = some n → target ∈ n.links → Reaches g start target

/-- Under every id that is reached, the other graph has the same node, or has none either. -/
def AgreesFrom (g g' : Graph) (start : NodeId) : Prop :=
  ∀ id, g.Reaches start id → g'.get? id = g.get? id

variable {g g' : Graph}

theorem Reaches.head {n : Node} {id target : NodeId} (hget : g.get? n.id = some n)
    (hid : id ∈ n.links) (h : g.Reaches id target) : g.Reaches n.id target := by
  induction h with
  | refl => exact .link .refl hget hid
  | link _ hget' hlink ih => exact .link ih hget' hlink

/-- Ids that are closed under links are all that is reached from one of them. -/
theorem Reaches.mem_of_closed {ids : List NodeId} {start target : NodeId} (hstart : start ∈ ids)
    (hclosed : ∀ n ∈ g.nodes, n.id ∈ ids → n.links ⊆ ids) (h : g.Reaches start target) :
    target ∈ ids := by
  induction h with
  | refl => exact hstart
  | link _ hget hlink ih => exact hclosed _ (mem_of_get? hget) ih hlink

namespace AgreesFrom

theorem get?_eq {start : NodeId} (h : g.AgreesFrom g' start) : g'.get? start = g.get? start :=
  h start .refl

theorem link {n : Node} {id : NodeId} (h : g.AgreesFrom g' n.id) (hget : g.get? n.id = some n)
    (hid : id ∈ n.links) : g.AgreesFrom g' id :=
  fun target htarget => h target (htarget.head hget hid)

theorem next {n : Node} (h : g.AgreesFrom g' n.id) (hget : g.get? n.id = some n) :
    ∀ id ∈ n.next, g.AgreesFrom g' id :=
  fun _ hid => h.link hget (List.mem_append_left _ (Option.mem_toList.2 hid))

theorem body {n : Node} (h : g.AgreesFrom g' n.id) (hget : g.get? n.id = some n) :
    ∀ id ∈ n.body, g.AgreesFrom g' id :=
  fun _ hid => h.link hget (List.mem_append_right _ (Option.mem_toList.2 hid))

end AgreesFrom

/-- The chain from a link is the same in both graphs. -/
theorem chain_agrees (active : List NodeId) (start : Option NodeId)
    (h : ∀ id ∈ start, g.AgreesFrom g' id) :
    g'.chain active start = g.chain active start := by
  fun_induction g.chain active start with
  | case1 active => rw [chain]
  | case2 active id hget => exact chain_of_missing ((h id rfl).get?_eq.trans hget) active
  | case3 active id n hget hid => exact chain_of_active ((h id rfl).get?_eq.trans hget) hid
  | case4 active id n hget hid rest cut hrest ih =>
    obtain rfl := id_of_get? hget
    have hsame := ih ((h n.id rfl).next hget)
    rw [chain_of_node ((h n.id rfl).get?_eq.trans hget) hid, hsame, hrest]

/-- The graphs agree from each node of a chain on. -/
theorem agrees_of_mem_chain {active : List NodeId} {start cut : Option NodeId} {nodes : List Node}
    (hchain : g.chain active start = (nodes, cut)) (h : ∀ id ∈ start, g.AgreesFrom g' id)
    {n : Node} (hn : n ∈ nodes) : g.get? n.id = some n ∧ g.AgreesFrom g' n.id := by
  induction nodes generalizing active start with
  | nil => exact absurd hn List.not_mem_nil
  | cons m rest ih =>
    obtain ⟨rfl, hget, -, hrest⟩ := chain_cons hchain
    rcases List.mem_cons.1 hn with rfl | hn
    · exact ⟨hget, h _ rfl⟩
    · exact ih hrest ((h _ rfl).next hget) hn

theorem ofNodes_congr {body body' : Node → Outline} (cut : Option NodeId) {nodes : List Node}
    (h : ∀ n ∈ nodes, body n = body' n) :
    Outline.ofNodes body cut nodes = Outline.ofNodes body' cut nodes := by
  induction nodes with
  | nil => rfl
  | cons n rest ih =>
    obtain ⟨hn, hrest⟩ := List.forall_mem_cons.1 h
    rw [Outline.ofNodes, Outline.ofNodes, hn, ih hrest]

/-- **Every look-up of lowering stays with what is reached**: graphs that agree there have one
outline, bodies and cuts included. -/
theorem outline_agrees (active : List NodeId) (start : Option NodeId)
    (h : ∀ id ∈ start, g.AgreesFrom g' id) :
    g'.outline active start = g.outline active start := by
  induction hm : unmarked g.ids active using Nat.strongRecOn generalizing active start with
  | ind m ih =>
    subst hm
    rcases hchain : g.chain active start with ⟨nodes, cut⟩
    rw [outline_eq hchain, outline_eq ((chain_agrees active start h).trans hchain)]
    refine ofNodes_congr cut fun n hn => ?_
    obtain ⟨hget, hagrees⟩ := agrees_of_mem_chain hchain h hn
    unfold bodyOutline
    split
    · exact ih _ (unmarked_chain hchain hn) _ _ (hagrees.body hget) rfl
    · rfl

end Graph

namespace Lowering

/-! ## Threads together -/

/-- A compilation, continued with more start nodes of new names. -/
theorem routines_foldl (rules : LoweringRules) (g : Graph) (starts : List Node)
    (hdistinct : (starts.map Node.id).Nodup) (c : Compilation)
    (hnew : ∀ s ∈ starts, routineName s.id ∉ c.program.routines.keys) :
    (starts.foldl (fun c start =>
        ⟨c.program.addRoutine (compileThread rules g start.id).1,
          c.warnings ++ (compileThread rules g start.id).2⟩) c).program.routines.entries =
      c.program.routines.entries ++
        starts.map fun s => (routineName s.id, (compileThread rules g s.id).1) := by
  induction starts generalizing c with
  | nil => exact (List.append_nil _).symm
  | cons s rest ih =>
    rw [List.map_cons, List.nodup_cons] at hdistinct
    obtain ⟨hs, hrest⟩ := hdistinct
    obtain ⟨hfirst, hothers⟩ := List.forall_mem_cons.1 hnew
    have hentries : (c.program.addRoutine (compileThread rules g s.id).1).routines.entries =
        c.program.routines.entries ++ [(routineName s.id, (compileThread rules g s.id).1)] :=
      Keyed.upsertEntries_of_not_mem _ hfirst
    rw [List.foldl_cons, ih hrest, hentries, List.append_assoc]
    · rfl
    · intro t ht hmem
      rw [Keyed.keys, hentries, List.map_append, List.mem_append] at hmem
      rcases hmem with hmem | hmem
      · exact hothers t ht hmem
      · have hname : t.id = s.id := routineName_inj (List.mem_singleton.1 hmem)
        exact hs (hname ▸ List.mem_map_of_mem ht)

/-- The program of distinct start nodes has their routines in their order. -/
theorem routines_compile (rules : LoweringRules) (g : Graph) {starts : List Node}
    (hdistinct : (starts.map Node.id).Nodup) :
    (compile rules g starts).program.routines.entries =
      starts.map fun s => (routineName s.id, (compileThread rules g s.id).1) :=
  routines_foldl rules g starts hdistinct ⟨.empty, []⟩ fun _ _ => List.not_mem_nil

theorem warnings_foldl (rules : LoweringRules) (g : Graph) (starts : List Node)
    (c : Compilation) :
    (starts.foldl (fun c start =>
        ⟨c.program.addRoutine (compileThread rules g start.id).1,
          c.warnings ++ (compileThread rules g start.id).2⟩) c).warnings =
      c.warnings ++ starts.flatMap fun s => (compileThread rules g s.id).2 := by
  induction starts generalizing c with
  | nil => exact (List.append_nil _).symm
  | cons s rest ih => rw [List.foldl_cons, ih, List.append_assoc, List.flatMap_cons]

theorem warnings_compile (rules : LoweringRules) (g : Graph) (starts : List Node) :
    (compile rules g starts).warnings =
      starts.flatMap fun s => (compileThread rules g s.id).2 :=
  warnings_foldl rules g starts ⟨.empty, []⟩

/-! ## Graphs that agree -/

variable (σ : Type) [HasSink σ]

/-- Threads with one code have one routine. -/
theorem routine_congr {g g' : Graph} {start : NodeId}
    (hentry : (threadOutline g' start).entry 1 threadEnd =
      (threadOutline g start).entry 1 threadEnd)
    (hcode : (threadOutline g' start).code 1 threadEnd =
      (threadOutline g start).code 1 threadEnd) :
    (compileThread (Registry.standard σ).rules g' start).1 =
      (compileThread (Registry.standard σ).rules g start).1 := by
  have hentries := compileThread_entries σ g start
  rw [← compileThread_entry σ, ← compileThread_entry σ] at hentry
  rw [← hcode, ← compileThread_entries σ g' start] at hentries
  rw [Routine.mk.injEq]
  exact ⟨rfl, hentry, Keyed.ext hentries.symm⟩

/-- The outline of a thread is all that its compilation depends on. -/
theorem compileThread_congr {g g' : Graph} {start : NodeId}
    (h : threadOutline g' start = threadOutline g start) :
    compileThread (Registry.standard σ).rules g' start =
      compileThread (Registry.standard σ).rules g start := by
  refine Prod.ext (routine_congr σ (by rw [h]) (by rw [h])) ?_
  rw [compileThread_warnings, compileThread_warnings, h]

/-- **Threads are compiled apart.** Graphs that agree on what is reached from a start node compile
it alike, and start nodes that are compiled together are compiled as each is alone. -/
theorem compile_modular (g : Graph) :
    let rules := (Registry.standard σ).rules
    (∀ (g' : Graph) (start : Node), g.AgreesFrom g' start.id →
      compileThread rules g' start.id = compileThread rules g start.id ∧
        compile rules g' [start] = compile rules g [start]) ∧
    ∀ starts : List Node, (starts.map Node.id).Nodup →
      (compile rules g starts).program.routines.entries =
          starts.flatMap (fun s => (compile rules g [s]).program.routines.entries) ∧
        (compile rules g starts).warnings =
          starts.flatMap (fun s => (compile rules g [s]).warnings) ∧
        ∀ s ∈ starts,
          (compile rules g [s]).program.routines.entries =
              [(routineName s.id, (compileThread rules g s.id).1)] ∧
            (compile rules g starts).program.routine? (routineName s.id) =
              some (compileThread rules g s.id).1 := by
  intro rules
  have halone : ∀ s : Node, (compile rules g [s]).program.routines.entries =
      [(routineName s.id, (compileThread rules g s.id).1)] :=
    fun s => routines_compile rules g (by simp)
  refine ⟨fun g' start h => ?_, fun starts hdistinct => ⟨?_, ?_, fun s hs => ⟨halone s, ?_⟩⟩⟩
  · have hthread : compileThread rules g' start.id = compileThread rules g start.id := by
      refine compileThread_congr σ (Graph.outline_agrees [] (some start.id) fun id hid => ?_)
      cases hid
      exact h
    refine ⟨hthread, ?_⟩
    unfold compile
    rw [List.foldl_cons, List.foldl_cons, hthread]
    rfl
  · rw [routines_compile rules g hdistinct, List.map_eq_flatMap]
    simp only [halone]
  · simp only [warnings_compile, List.flatMap_singleton]
  · exact (routine?_compile_iff rules g starts).2 ⟨s, hs, rfl, rfl⟩

/-- Two loops in each other's bodies, and a node that links to itself. -/
def entangled : Graph :=
  ⟨[⟨"s", "start", ∅, some "outer", none⟩, ⟨"outer", "repeat", ∅, some "end", some "inner"⟩,
      ⟨"inner", "forever", ∅, some "lost", some "outer"⟩, ⟨"end", "print", ∅, some "end", none⟩],
    by decide⟩

/-- The same in another order, with a second thread that joins the first. -/
def entangledTwice : Graph :=
  ⟨[⟨"end", "print", ∅, some "end", none⟩, ⟨"t", "start", ∅, some "inner", none⟩,
      ⟨"inner", "forever", ∅, some "lost", some "outer"⟩, ⟨"other", "rest", ∅, some "s", none⟩,
      ⟨"outer", "repeat", ∅, some "end", some "inner"⟩, ⟨"s", "start", ∅, some "outer", none⟩],
    by decide⟩

theorem compile_modular_entangled :
    let rules := (Registry.standard Sink).rules
    let start : Node := ⟨"s", "start", ∅, some "outer", none⟩
    let second : Node := ⟨"t", "start", ∅, some "inner", none⟩
    entangled.AgreesFrom entangledTwice "s" ∧
      (compile rules entangled [start]).warnings =
        [.cyclicChain "end", .cyclicChain "outer"] ∧
      compile rules entangledTwice [start] = compile rules entangled [start] ∧
      ([start, second].map Node.id).Nodup ∧
      (compile rules entangledTwice [start, second]).program.routine? "thread_s" =
        some (compileThread rules entangled "s").1 := by
  intro rules start second
  have hagrees : entangled.AgreesFrom entangledTwice "s" := by
    have hsame : ∀ id ∈ ["s", "outer", "inner", "end", "lost"],
        entangledTwice.get? id = entangled.get? id := by decide
    exact fun id hid => hsame id (hid.mem_of_closed (by decide) (by decide))
  have hdistinct : ([start, second].map Node.id).Nodup := by decide
  obtain ⟨hthread, hprogram⟩ := (compile_modular Sink entangled).1 _ start hagrees
  refine ⟨hagrees, by decide +kernel, hprogram, hdistinct, ?_⟩
  have hboth := (compile_modular Sink entangledTwice).2 _ hdistinct
  exact (hboth.2.2 start List.mem_cons_self).2.trans (congrArg (fun c => some c.1) hthread)

end Lowering

end TuneBlocks
