import TuneBlocks.Proofs.Origins
import TuneBlocks.Proofs.Reachability
import TuneBlocks.Proofs.Roots
import TuneBlocks.Proofs.Splicing

/-!
# Trees

In a graph where at most one link leads to each node, only one route leads from a root to a node
(`route_unique`). So no chain is cut there, each node that is reached is lowered once, and the
routine has as many blocks as these nodes take and one more. Without endless loops all of the blocks
can be reached (`leads_to_region`).
-/

namespace TuneBlocks

open Relation (ReflTransGen TransGen)

/-! ## Routes -/

namespace Graph

variable {g : Graph} {n : Node} {way : Way} {route : List Way}

theorem get?_of_nodeAt? {link : Option NodeId} (h : g.nodeAt? link route = some n) :
    g.get? n.id = some n := by
  induction route generalizing link with
  | nil =>
    obtain ⟨id, -, hget⟩ := Option.bind_eq_some_iff.1 h
    rwa [id_of_get? hget]
  | cons way route ih =>
    obtain ⟨m, -, hrest⟩ := Option.bind_eq_some_iff.1 h
    exact ih hrest

theorem nodeAt?_append (link : Option NodeId) (route back : List Way) :
    g.nodeAt? link (route ++ back) =
      (g.nodeAt? link route).bind fun n => g.nodeAt? (some n.id) back := by
  induction route generalizing link with
  | nil =>
    rw [List.nil_append, nodeAt?]
    cases hlink : link.bind g.get? with
    | none => exact nodeAt?_of_nowhere hlink back
    | some n =>
      obtain ⟨id, rfl, hget⟩ := Option.bind_eq_some_iff.1 hlink
      rw [Option.bind_some, id_of_get? hget]
  | cons way route ih => simp only [List.cons_append, nodeAt?, ih, Option.bind_assoc]

/-- The last step of a route. -/
theorem nodeAt?_concat {link : Option NodeId} :
    g.nodeAt? link (route ++ [way]) = some n ↔
      ∃ m, g.nodeAt? link route = some m ∧ m.link way = some n.id ∧ g.get? n.id = some n := by
  rw [nodeAt?_append, Option.bind_eq_some_iff]
  refine exists_congr fun m => and_congr_right fun hm => ?_
  rw [nodeAt?_cons (get?_of_nodeAt? hm), nodeAt?, Option.bind_eq_some_iff]
  constructor
  · rintro ⟨id, hid, hget⟩
    obtain rfl := id_of_get? hget
    exact ⟨hid, hget⟩
  · rintro ⟨hid, hget⟩
    exact ⟨n.id, hid, hget⟩

theorem leads_of_nodeAt? {id : NodeId} (h : g.nodeAt? (some id) route = some n) :
    ReflTransGen g.Leads id n.id := by
  induction route using List.reverseRecOn generalizing n with
  | nil => rw [id_of_get? h]
  | append_singleton route way ih =>
    obtain ⟨m, hm, hlink, -⟩ := nodeAt?_concat.1 h
    exact (ih hm).tail ⟨m, way, get?_of_nodeAt? hm, hlink⟩

theorem exists_route {a b : NodeId} (h : ReflTransGen g.Leads a b) (hb : g.get? b = some n) :
    ∃ route, g.nodeAt? (some a) route = some n := by
  induction h generalizing n with
  | refl => exact ⟨[], hb⟩
  | tail _ hlast ih =>
    obtain ⟨m, way, hm, hlink⟩ := hlast
    obtain ⟨route, hroute⟩ := ih hm
    rw [← id_of_get? hb] at hlink hb
    exact ⟨route ++ [way], nodeAt?_concat.2 ⟨m, hroute, hlink, hb⟩⟩

end Graph

/-! ## At most one link to each node -/

namespace Node

variable {n : Node} {way way' : Way} {id : NodeId}

theorem mem_links_of_link (h : n.link way = some id) : id ∈ n.links := by
  rw [mem_links_iff]
  cases way with
  | next => exact .inl h
  | body =>
    rw [link] at h
    split at h
    · exact .inr h
    · cases h

/-- A node that links to another both ways links to it twice. -/
theorem way_unique (hone : n.links.count id ≤ 1) (h : n.link way = some id)
    (h' : n.link way' = some id) : way = way' := by
  have hboth : ¬ (n.next = some id ∧ n.link .body = some id) := by
    rintro ⟨hnext, hbody⟩
    rw [link] at hbody
    split at hbody
    · rw [links, hnext, hbody] at hone
      simp at hone
    · cases hbody
  cases way <;> cases way'
  · rfl
  · exact absurd ⟨h, h'⟩ hboth
  · exact absurd ⟨h', h⟩ hboth
  · rfl

end Node

namespace Graph

variable {g : Graph} {m n s : Node} {way way' : Way} {route route' : List Way}

/-- At most one link leads to each node, from all nodes together. -/
def TreeShaped (g : Graph) : Prop := ∀ id ∈ g.ids, (g.nodes.flatMap Node.links).count id ≤ 1

instance (g : Graph) : Decidable g.TreeShaped :=
  inferInstanceAs (Decidable (∀ id ∈ g.ids, (g.nodes.flatMap Node.links).count id ≤ 1))

theorem TreeShaped.link_unique (h : g.TreeShaped) (hm : m ∈ g.nodes) (hn : n ∈ g.nodes)
    {id : NodeId} (hid : id ∈ g.ids) (hmlink : m.link way = some id)
    (hnlink : n.link way' = some id) : m = n ∧ way = way' := by
  obtain ⟨front, back, hsplit⟩ := List.append_of_mem hm
  have hone := h id hid
  rw [hsplit, List.flatMap_append, List.flatMap_cons, List.count_append, List.count_append] at hone
  have hown : 0 < m.links.count id := List.count_pos_iff.2 (Node.mem_links_of_link hmlink)
  have helse : ∀ part : List Node, n ∈ part → 0 < (part.flatMap Node.links).count id :=
    fun part hpart => List.count_pos_iff.2
      (List.mem_flatMap.2 ⟨n, hpart, Node.mem_links_of_link hnlink⟩)
  rw [hsplit, List.mem_append, List.mem_cons] at hn
  rcases hn with hfront | rfl | hback
  · have := helse front hfront
    omega
  · exact ⟨rfl, Node.way_unique (by omega) hmlink hnlink⟩
  · have := helse back hback
    omega

theorem not_link_root (hs : s ∈ g.roots) (hm : m ∈ g.nodes) : m.link way ≠ some s.id := by
  intro hlink
  obtain ⟨hnode, hother, hself⟩ := mem_roots_iff.1 hs
  have hlinked := (linked_iff hnode).1
    (List.mem_flatMap.2 ⟨m, hm, Node.mem_links_of_link hlink⟩)
  exact hlinked.elim hother hself

/-- **In a tree one route leads from a root to a node.** -/
theorem TreeShaped.route_unique (h : g.TreeShaped) (hs : s ∈ g.roots)
    (hroute : g.nodeAt? (some s.id) route = some n)
    (hroute' : g.nodeAt? (some s.id) route' = some n) : route = route' := by
  have hmem : ∀ {route m}, g.nodeAt? (some s.id) route = some m → m ∈ g.nodes :=
    fun hm => mem_of_get? (get?_of_nodeAt? hm)
  -- the last link of a route is the only one to its node, so routes are compared from their ends
  have hnonempty : ∀ {route way}, g.nodeAt? (some s.id) (route ++ [way]) ≠ some s := by
    intro route way hlast
    obtain ⟨m, hm, hlink, -⟩ := nodeAt?_concat.1 hlast
    exact not_link_root hs (hmem hm) hlink
  have hstart : ∀ {m}, g.nodeAt? (some s.id) [] = some m → m = s :=
    fun hm => eq_of_id_eq (hmem hm) (mem_roots_iff.1 hs).1 (id_of_get? hm)
  induction route using List.reverseRecOn generalizing route' n with
  | nil =>
    obtain rfl := hstart hroute
    induction route' using List.reverseRecOn with
    | nil => rfl
    | append_singleton => exact absurd hroute' hnonempty
  | append_singleton front way ih =>
    obtain ⟨m, hm, hlink, hget⟩ := nodeAt?_concat.1 hroute
    induction route' using List.reverseRecOn with
    | nil =>
      obtain rfl := hstart hroute'
      exact absurd hroute hnonempty
    | append_singleton front' way' =>
      obtain ⟨m', hm', hlink', -⟩ := nodeAt?_concat.1 hroute'
      obtain ⟨rfl, rfl⟩ := h.link_unique (hmem hm) (hmem hm')
        (List.mem_map_of_mem (mem_of_get? hget)) hlink hlink'
      rw [ih hm hm']

/-- Two different routes on from one node do not meet again. -/
theorem TreeShaped.back_unique (h : g.TreeShaped) (hs : s ∈ g.roots)
    (hm : ReflTransGen g.Leads s.id m.id) (hget : g.get? m.id = some m)
    (hroute : g.nodeAt? (some m.id) route = some n)
    (hroute' : g.nodeAt? (some m.id) route' = some n) : route = route' := by
  obtain ⟨front, hfront⟩ := exists_route hm hget
  have hwhole : ∀ back, g.nodeAt? (some s.id) (front ++ back) = g.nodeAt? (some m.id) back := by
    intro back
    rw [nodeAt?_append, hfront, Option.bind_some]
  exact List.append_cancel_left
    (h.route_unique hs ((hwhole route).trans hroute) ((hwhole route').trans hroute'))

theorem exists_route_on (hget : g.get? m.id = some m) {b y : NodeId} (hlink : m.link way = some b)
    (h : ReflTransGen g.Leads b y) (hy : g.get? y = some n) :
    ∃ route, g.nodeAt? (some m.id) (way :: route) = some n := by
  obtain ⟨route, hroute⟩ := exists_route h hy
  refine ⟨route, ?_⟩
  rw [nodeAt?_cons hget, hlink]
  exact hroute

theorem TreeShaped.not_onCycle (h : g.TreeShaped) (hs : s ∈ g.roots) (y : NodeId) :
    ¬ g.OnCycle s.id y := by
  rintro ⟨hreach, hcycle⟩
  obtain ⟨b, ⟨m, way, hget, hlink⟩, hback⟩ := TransGen.head'_iff.1 hcycle
  obtain rfl := id_of_get? hget
  obtain ⟨route, hroute⟩ := exists_route_on hget hlink hback hget
  exact List.cons_ne_nil _ _ (h.back_unique hs hreach hget hroute hget)

theorem TreeShaped.not_rejoins (h : g.TreeShaped) (hs : s ∈ g.roots) (y : NodeId) :
    ¬ g.Rejoins s.id y := by
  rintro ⟨r, b, hr, hbelow, hafter, hsome⟩
  obtain ⟨n, hy⟩ := Option.isSome_iff_exists.1 hsome
  obtain ⟨c, ⟨r', hr', hnext⟩, hrest⟩ := TransGen.head'_iff.1 hafter
  cases hr.get?.symm.trans hr'
  obtain ⟨route, hroute⟩ := exists_route_on hr.get? hr.link hbelow hy
  have hlink : r.link .next = some c := hnext
  obtain ⟨route', hroute'⟩ := exists_route_on hr.get? hlink (leads_of_precedes hrest) hy
  cases h.back_unique hs hr.reaches hr.get? hroute hroute'

/-- **In a tree no chain is cut.** -/
theorem TreeShaped.uncut (h : g.TreeShaped) (hs : s ∈ g.roots) (id : NodeId) :
    .cyclicChain id ∉ (g.outline [] (some s.id)).warnings := fun hcut =>
  (cut_explained (.refl s.id) hcut).elim (h.not_onCycle hs id) (h.not_rejoins hs id)

end Graph

/-! ## Nodes and blocks -/

namespace Outline

variable {o : Outline} {n : Node}

theorem mem_nodes_iff : n ∈ o.nodes ↔ ∃ route, o.nodeAt? route = some n := by
  obtain ⟨hfinite, hcard⟩ := o.ncard_routes n
  rw [← List.count_pos_iff, ← hcard, Set.ncard_pos hfinite]
  rfl

theorem nodup_nodes (h : ∀ n route route', o.nodeAt? route = some n →
    o.nodeAt? route' = some n → route = route') : o.nodes.Nodup := by
  rw [List.nodup_iff_count_le_one]
  intro n
  obtain ⟨hfinite, hcard⟩ := o.ncard_routes n
  rw [← hcard, Set.ncard_le_one hfinite]
  exact fun route hroute route' hroute' => h n route route' hroute hroute'

end Outline

theorem Node.length_blocks (n : Node) (a : Nat) (next body : Label) :
    (n.blocks a next body).length = n.kind.width := by
  unfold blocks
  cases n.kind <;> rfl

theorem Outline.length_code (o : Outline) (a : Nat) (exit : Label) :
    (o.code a exit).length = o.size := by
  induction o generalizing a exit with
  | ending => rfl
  | node n body rest ihbody ihrest =>
    simp only [code, size, List.length_append, ihbody, ihrest, Node.length_blocks]

theorem Outline.size_eq_sum (o : Outline) : o.size = (o.nodes.map fun n => n.kind.width).sum := by
  induction o with
  | ending => rfl
  | node n body rest ihbody ihrest =>
    simp only [size, nodes, ihbody, ihrest, List.map_append, List.map_cons, List.map_nil,
      List.sum_append, List.sum_singleton]
    omega

/-- How many blocks a node of the type becomes, if its body is left out. -/
def Registry.blockCount {σ : Type} (r : Registry σ) (type : String) : Nat :=
  if type ∈ r.blockTypes then if type = "repeat" then 3 else 1 else 0

theorem Node.width_kind (σ : Type) [HasSink σ] (n : Node) :
    n.kind.width = (Registry.standard σ).blockCount n.type := by
  unfold Registry.blockCount
  simp only [n.mem_blockTypes_iff σ]
  unfold kind call
  split <;> simp_all [Kind.width]

/-! ## Reachable blocks -/

namespace Routine

variable {r : Routine} {key t : Label} {b : BasicBlock} {i : Instruction}

theorem WF.targets (hr : r.WF) (hb : r.block? key = some b) (hi : i ∈ b.instructions)
    (ht : t ∈ i.targets) : r.Targets key t :=
  ⟨(hr.blocks (Keyed.get?_eq_some_iff.1 hb)).targets i hi t ht, b, hb, i, hi, ht⟩

theorem WF.exists_path (hr : r.WF) (h : ReflTransGen r.Targets r.entry key) :
    ∃ n, r.Path n key := by
  induction h with
  | refl => exact ⟨0, .entry hr.entry⟩
  | tail _ htarget ih =>
    obtain ⟨n, hpath⟩ := ih
    exact ⟨n + 1, .step hpath htarget⟩

end Routine

theorem Node.type_of_forever {n : Node} (h : n.kind = .forever) : n.type = "forever" := by
  unfold kind at h
  split at h <;> first | assumption | cases h

theorem Node.bodyExit_of_plain {n : Node} (h : n.kind.isLoop = false) (a : Nat) (next : Label) :
    n.bodyExit a next = next := by
  unfold bodyExit
  split
  · rename_i hkind
    rw [hkind] at h
    cases h
  · rename_i hkind
    rw [hkind] at h
    cases h
  · rfl

/-- From the first block of a node control gets to what follows, to the body, and to all blocks of
the node but the one where the body is left. -/
theorem Node.leads_on {n : Node} {a : Nat} {next body : Label} {r : Routine} (hr : r.WF)
    (hholds : r.Holds (n.blocks a next body)) (hends : n.kind ≠ .forever)
    (hplain : n.kind.isLoop = false → body = next) :
    ReflTransGen r.Targets (n.entry a next) next ∧ ReflTransGen r.Targets (n.entry a next) body ∧
      ∀ t ∈ (n.blocks a next body).map BasicBlock.label,
        ReflTransGen r.Targets (n.entry a next) t ∨ t = n.bodyExit a next := by
  cases hkind : n.kind with
  | counted bound =>
    simp only [blocks, hkind, Routine.holds_cons] at hholds
    obtain ⟨hinit, hcond, -⟩ := hholds
    have htest := ReflTransGen.single (hr.targets hinit (List.mem_cons_of_mem _ List.mem_cons_self)
      List.mem_cons_self)
    have hbranch : ∀ t ∈ [body, next], r.Targets (Draft.label ("loop_cond_" ++ n.id) (a + 2)) t :=
      fun t ht => hr.targets hcond List.mem_cons_self ht
    simp only [entry, blocks, bodyExit, hkind, List.map_cons, List.map_nil, List.mem_cons,
      List.not_mem_nil, or_false]
    refine ⟨htest.tail (hbranch next (by simp)), htest.tail (hbranch body (by simp)), ?_⟩
    rintro t (rfl | rfl | rfl)
    · exact .inl .refl
    · exact .inl htest
    · exact .inr rfl
  | forever => exact absurd hkind hends
  | place =>
    obtain rfl := hplain (by rw [hkind]; rfl)
    simp only [blocks, hkind, Routine.holds_cons] at hholds
    have hnext := ReflTransGen.single (hr.targets hholds.1 List.mem_cons_self List.mem_cons_self)
    simp only [entry, blocks, hkind, List.map_cons, List.map_nil, List.mem_singleton]
    exact ⟨hnext, hnext, fun t ht => .inl (ht ▸ .refl)⟩
  | act x =>
    obtain rfl := hplain (by rw [hkind]; rfl)
    simp only [blocks, hkind, Routine.holds_cons] at hholds
    have hnext := ReflTransGen.single (hr.targets hholds.1
      (List.mem_cons_of_mem _ List.mem_cons_self) List.mem_cons_self)
    simp only [entry, blocks, hkind, List.map_cons, List.map_nil, List.mem_singleton]
    exact ⟨hnext, hnext, fun t ht => .inl (ht ▸ .refl)⟩
  | unknown =>
    obtain rfl := hplain (by rw [hkind]; rfl)
    simp only [entry, blocks, hkind]
    exact ⟨.refl, .refl, fun t ht => absurd ht List.not_mem_nil⟩

/-- **Without endless loops control gets from the first block of a chain to all others** and to
where the chain is left. -/
theorem Outline.leads_to_region {o : Outline} {a : Nat} {exit t : Label} {r : Routine} (hr : r.WF)
    (htidy : o.Tidy) (hends : ∀ n ∈ o.nodes, n.kind ≠ .forever) (hholds : r.Holds (o.code a exit))
    (ht : o.Region a exit t) : ReflTransGen r.Targets (o.entry a exit) t := by
  induction o generalizing a exit t with
  | ending =>
    obtain rfl := ht.resolve_right List.not_mem_nil
    exact .refl
  | node n body rest ihbody ihrest =>
    obtain ⟨hplain, htidyBody, htidyRest⟩ := htidy
    simp only [nodes, List.forall_mem_append, List.forall_mem_singleton] at hends
    obtain ⟨hendsRest, hendsBody, hn⟩ := hends
    simp only [code, Routine.holds_append] at hholds
    obtain ⟨hrest, hown, hbody⟩ := hholds
    obtain ⟨hnext, hbelow, hlabels⟩ := Node.leads_on hr hown hn fun hloop => by
      rw [hplain hloop]
      exact Node.bodyExit_of_plain hloop _ _
    have hrestRegion : ∀ {t}, rest.Region a exit t →
        ReflTransGen r.Targets ((node n body rest).entry a exit) t :=
      fun ht => hnext.trans (ihrest htidyRest hendsRest hrest ht)
    have hbodyRegion := fun {t} ht => hbelow.trans (@ihbody _ _ t htidyBody hendsBody hbody ht)
    rcases ht with rfl | ht
    · exact hrestRegion (.inl rfl)
    · simp only [code, List.map_append, List.mem_append] at ht
      rcases ht with ht | ht | ht
      · exact hrestRegion (.inr ht)
      · rcases hlabels t ht with hreach | rfl
        · exact hreach
        · exact hbodyRegion (.inl rfl)
      · exact hbodyRegion (.inr ht)

/-! ## Threads -/

namespace Lowering

variable (σ : Type) [HasSink σ]

theorem map_node_threadCalls (g : Graph) (start : NodeId) :
    (threadCalls (Registry.standard σ).rules g start).map NodeCall.node =
      (threadOutline g start).nodes := by
  rw [← Outline.map_node_pieces _ 1 threadEnd, ← (threadCalls_pieces σ g start).2, List.map_map]
  rfl

theorem size_compileThread (g : Graph) (start : NodeId) :
    (compileThread (Registry.standard σ).rules g start).1.blocks.size =
      1 + (threadOutline g start).size := by
  rw [Keyed.size, compileThread_entries, Draft.entriesOf, List.length_map, List.length_cons,
    Outline.length_code, Nat.add_comm]

theorem unreachable_compileThread {g : Graph} {start : NodeId}
    (h : ∀ n ∈ (threadOutline g start).nodes, n.type ≠ "forever") :
    (compileThread (Registry.standard σ).rules g start).1.unreachable = [] := by
  have hwf := compileThread_wf σ g start
  refine List.eq_nil_iff_forall_not_mem.2 fun key hkey => ?_
  obtain ⟨hmem, hnot⟩ := Routine.mem_unreachable_iff.1 hkey
  rw [compileThread_keys, List.mem_cons] at hmem
  apply hnot
  rw [Routine.mem_reachable_iff]
  apply hwf.exists_path
  rw [compileThread_entry]
  refine Outline.leads_to_region hwf (g.tidy_outline [] (some start)) (fun n hn hkind => ?_)
    (fun b hb => compileThread_block?_of_mem σ (List.mem_cons_of_mem _ hb)) hmem
  exact h n hn (Node.type_of_forever hkind)

/-- **In a tree each node is lowered once, and the blocks of these nodes are all there is.** Where
at most one link leads to each node, threads that start at roots get no warning of a cut. What is
lowered are the nodes that links lead to from the root, each once, and the routine has their blocks
and the one where the thread ends. If no endless loop is among them, every block is reachable. -/
theorem tree_exact (g : Graph) (hg : g.TreeShaped) (starts : List Node)
    (hstarts : starts ⊆ g.roots) :
    let rules := (Registry.standard σ).rules
    let compiled := compile rules g starts
    (∀ id, .cyclicChain id ∉ compiled.warnings) ∧
    ∀ s ∈ starts, ∃ r, compiled.program.routine? (routineName s.id) = some r ∧
      let lowered := (threadCalls rules g s.id).map NodeCall.node
      lowered.Nodup ∧
      (∀ n, n ∈ lowered ↔ n ∈ g.nodes ∧ ReflTransGen g.Leads s.id n.id) ∧
      r.blocks.size = 1 + (lowered.map fun n => (Registry.standard σ).blockCount n.type).sum ∧
      ((∀ n ∈ lowered, n.type ≠ "forever") → r.unreachable = []) := by
  intro rules compiled
  refine ⟨fun id hid => ?_, fun s hs => ?_⟩
  · rw [warnings_compile] at hid
    obtain ⟨s, hs, hid⟩ := List.mem_flatMap.1 hid
    rw [compileThread_warnings] at hid
    exact hg.uncut (hstarts hs) id hid
  · have hr : compiled.program.routine? (routineName s.id) = some (compileThread rules g s.id).1 :=
      (routine?_compile_iff rules g starts).2 ⟨s, hs, rfl, rfl⟩
    refine ⟨_, hr, ?_⟩
    have huncut : (threadOutline g s.id).Uncut :=
      Outline.uncut_of_warnings (hg.uncut (hstarts hs))
    have hroutes := Graph.nodeAt?_outline [] (some s.id) huncut
    rw [map_node_threadCalls]
    refine ⟨?_, fun n => ?_, ?_, unreachable_compileThread σ⟩
    · apply Outline.nodup_nodes
      intro n route route' h h'
      rw [threadOutline, hroutes] at h h'
      exact hg.route_unique (hstarts hs) h h'
    · rw [Outline.mem_nodes_iff]
      simp only [threadOutline, hroutes]
      constructor
      · rintro ⟨route, hroute⟩
        exact ⟨Graph.mem_of_get? (Graph.get?_of_nodeAt? hroute), Graph.leads_of_nodeAt? hroute⟩
      · rintro ⟨hn, hreach⟩
        exact Graph.exists_route hreach (Graph.get?_eq_some_iff.2 ⟨hn, rfl⟩)
    · rw [size_compileThread, Outline.size_eq_sum]
      simp only [Node.width_kind σ]

/-- A loop in a loop. Links lead to a node of an unknown type, whose body is not followed, and to no
node. -/
def rondo : Graph :=
  ⟨[⟨"s", "start", ∅, some "twice", none⟩, ⟨"twice", "repeat", ∅, some "odd", some "thrice"⟩,
      ⟨"thrice", "repeat", ∅, none, some "riff"⟩, ⟨"riff", "play_note", ∅, some "gone", none⟩,
      ⟨"odd", "whistle", ∅, some "coda", some "aside"⟩, ⟨"coda", "print", ∅, none, none⟩,
      ⟨"aside", "print", ∅, none, none⟩], by decide⟩

theorem tree_exact_rondo :
    let rules := (Registry.standard Sink).rules
    let compiled := compile rules rondo rondo.roots
    let lowered := (threadCalls rules rondo "s").map NodeCall.node
    rondo.TreeShaped ∧ rondo.roots.map Node.id = ["s"] ∧
    (∀ id, .cyclicChain id ∉ compiled.warnings) ∧
    lowered.map Node.id = ["coda", "odd", "riff", "thrice", "twice", "s"] ∧
    ∃ r, compiled.program.routine? (routineName "s") = some r ∧ r.blocks.size = 10 ∧
      r.unreachable = [] := by
  intro rules compiled lowered
  obtain ⟨hwarnings, hthreads⟩ :=
    tree_exact Sink rondo (by decide) rondo.roots (List.Subset.refl _)
  obtain ⟨r, hr, -, -, hsize, hall⟩ :=
    hthreads ⟨"s", "start", ∅, some "twice", none⟩ (by decide)
  refine ⟨by decide, by decide, hwarnings, by decide +kernel, r, hr, ?_, hall (by decide +kernel)⟩
  rw [hsize]
  decide +kernel

end Lowering

end TuneBlocks
