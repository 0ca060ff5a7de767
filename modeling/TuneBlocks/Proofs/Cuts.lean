import TuneBlocks.Proofs.Cycles

/-!
# Where chains are cut

All nodes of a chain are active while the bodies of its loops are lowered, those behind a loop
included, although these have been lowered by then. So a chain is cut at a node for one of two
reasons (`cut_explained`): the links close a cycle, or the body of a loop leads to a node that comes
after the loop (`Graph.Rejoins`). Both do lead to a cut (`not_rejoins_of_uncut`).
-/

namespace TuneBlocks

open Relation (ReflTransGen TransGen)

namespace Graph

variable {g : Graph} {active : List NodeId} {start cut : Option NodeId} {nodes : List Node}

/-! ## Chains -/

/-- The link from a node to the one that follows. -/
def Precedes (g : Graph) (a b : NodeId) : Prop := ∃ n, g.get? a = some n ∧ n.next = some b

theorem Precedes.leads {a b : NodeId} (h : g.Precedes a b) : g.Leads a b := by
  obtain ⟨n, hget, hnext⟩ := h
  exact ⟨n, .next, hget, hnext⟩

theorem leads_of_precedes {a b : NodeId} (h : ReflTransGen g.Precedes a b) :
    ReflTransGen g.Leads a b :=
  h.lift id fun _ _ => Precedes.leads

theorem transGen_leads_of_precedes {a b : NodeId} (h : TransGen g.Precedes a b) :
    TransGen g.Leads a b :=
  h.lift id fun _ _ => Precedes.leads

/-- The nodes of a chain are inactive nodes of the graph that follow its first link. -/
theorem mem_chain (h : g.chain active start = (nodes, cut)) {n : Node} (hn : n ∈ nodes) :
    g.get? n.id = some n ∧ n.id ∉ active ∧ ∃ id ∈ start, ReflTransGen g.Precedes id n.id := by
  induction nodes generalizing active start with
  | nil => exact absurd hn List.not_mem_nil
  | cons m rest ih =>
    obtain ⟨rfl, hget, hinactive, hrest⟩ := chain_cons h
    rcases List.mem_cons.1 hn with rfl | hn
    · exact ⟨hget, hinactive, n.id, rfl, .refl⟩
    · obtain ⟨hget', hinactive', id, hid, hreach⟩ := ih hrest hn
      exact ⟨hget', fun hmem => hinactive' (List.mem_cons_of_mem _ hmem), m.id, rfl,
        .head ⟨m, hget, hid⟩ hreach⟩

/-- The nodes of an outline are found in the graph under their ids. -/
theorem get?_of_mem_nodes {n : Node} (h : n ∈ (g.outline active start).nodes) :
    g.get? n.id = some n := by
  induction hm : unmarked g.ids active using Nat.strongRecOn generalizing active start with
  | ind k ih =>
    subst hm
    rcases hchain : g.chain active start with ⟨chain, cut⟩
    rw [outline_eq hchain] at h
    rcases Outline.mem_nodes_ofNodes h with hn | ⟨m, hm, hn⟩
    · exact (mem_chain hchain hn).1
    · rw [bodyOutline_eq] at hn
      exact ih _ (unmarked_chain hchain hm) hn rfl

/-- Of two nodes of a chain one follows the other. -/
theorem chain_comparable (h : g.chain active start = (nodes, cut)) {m n : Node} (hm : m ∈ nodes)
    (hn : n ∈ nodes) :
    ReflTransGen g.Precedes m.id n.id ∨ ReflTransGen g.Precedes n.id m.id := by
  induction nodes generalizing active start with
  | nil => exact absurd hn List.not_mem_nil
  | cons k rest ih =>
    obtain ⟨rfl, -, -, hrest⟩ := chain_cons h
    have hfirst : ∀ {u}, u ∈ k :: rest → ReflTransGen g.Precedes k.id u.id := by
      intro u hu
      obtain ⟨-, -, id, hid, hreach⟩ := mem_chain h hu
      cases hid
      exact hreach
    rcases List.mem_cons.1 hm with rfl | hm'
    · exact .inl (hfirst hn)
    · rcases List.mem_cons.1 hn with rfl | hn'
      · exact .inr (hfirst hm)
      · exact ih hrest hm' hn'

/-- A chain is cut at a node that was active before, or at one of its own. -/
theorem chain_cut {y : NodeId} (h : g.chain active start = (nodes, some y)) :
    (g.get? y).isSome ∧ (∃ id ∈ start, ReflTransGen g.Precedes id y) ∧
      (y ∈ active ∨ TransGen g.Precedes y y) := by
  induction nodes generalizing active start with
  | nil =>
    unfold chain at h
    split at h
    · cases h
    · rename_i id
      split at h
      · cases h
      · rename_i hget
        split at h
        · rename_i hid
          cases h
          exact ⟨Option.isSome_iff_exists.2 ⟨_, hget⟩, ⟨_, rfl, .refl⟩, .inl hid⟩
        · cases h
  | cons n rest ih =>
    obtain ⟨rfl, hget, -, hrest⟩ := chain_cons h
    obtain ⟨hsome, ⟨id, hid, hreach⟩, hcut⟩ := ih hrest
    refine ⟨hsome, ⟨n.id, rfl, .head ⟨n, hget, hid⟩ hreach⟩, ?_⟩
    rcases hcut with hactive | hcycle
    · rcases List.mem_cons.1 hactive with rfl | hactive
      · exact .inr (.head' ⟨n, hget, hid⟩ hreach)
      · exact .inl hactive
    · exact .inr hcycle

/-! ## Chains that are not cut -/

theorem head_mem_chain {id : NodeId} {m : Node} (h : g.chain active (some id) = (nodes, none))
    (hget : g.get? id = some m) : m ∈ nodes := by
  by_cases hid : id ∈ active
  · rw [chain_of_active hget hid] at h
    cases h
  · rw [chain_of_node hget hid] at h
    rw [← (Prod.mk.inj h).1]
    exact List.mem_cons_self

theorem next_mem_chain (h : g.chain active start = (nodes, none)) {n m : Node} (hn : n ∈ nodes)
    {id : NodeId} (hnext : n.next = some id) (hget : g.get? id = some m) : m ∈ nodes := by
  induction nodes generalizing active start with
  | nil => exact absurd hn List.not_mem_nil
  | cons k rest ih =>
    obtain ⟨-, -, -, hrest⟩ := chain_cons h
    rcases List.mem_cons.1 hn with rfl | hn
    · rw [hnext] at hrest
      exact List.mem_cons_of_mem _ (head_mem_chain hrest hget)
    · exact List.mem_cons_of_mem _ (ih hrest hn)

/-- All that follows a node of the chain is in the chain. -/
theorem mem_chain_of_precedes (h : g.chain active start = (nodes, none)) {n m : Node}
    (hn : n ∈ nodes) {y : NodeId} (hreach : ReflTransGen g.Precedes n.id y)
    (hget : g.get? y = some m) : m ∈ nodes := by
  induction hreach generalizing m with
  | refl =>
    cases (mem_chain h hn).1.symm.trans hget
    exact hn
  | tail _ hlast ih =>
    obtain ⟨k, hk, hnext⟩ := hlast
    exact next_mem_chain h (ih hk) hnext hget

/-- What the first node of a chain leads to is in the chain or below a body of it. -/
theorem mem_chain_or_below {id : NodeId} (h : g.chain active (some id) = (nodes, none))
    {y : NodeId} (hreach : ReflTransGen g.Leads id y) {m : Node} (hget : g.get? y = some m) :
    m ∈ nodes ∨ ∃ n ∈ nodes, ∃ b, n.link .body = some b ∧ ReflTransGen g.Leads b y := by
  induction hreach generalizing m with
  | refl => exact .inl (head_mem_chain h hget)
  | tail _ hlast ih =>
    obtain ⟨k, way, hk, hlink⟩ := hlast
    rcases ih hk with hmem | ⟨n, hn, b, hb, hbelow⟩
    · cases way with
      | next => exact .inl (next_mem_chain h hmem hlink hget)
      | body => exact .inr ⟨k, hmem, _, hlink, .refl⟩
    · exact .inr ⟨n, hn, b, hb, hbelow.tail ⟨k, way, hk, hlink⟩⟩

/-- An outline without cuts stays away from the active nodes. -/
theorem inactive_of_uncut {id y : NodeId} (h : (g.outline active (some id)).Uncut)
    (hreach : ReflTransGen g.Leads id y) {m : Node} (hget : g.get? y = some m) : y ∉ active := by
  induction hm : unmarked g.ids active using Nat.strongRecOn generalizing active id with
  | ind k ih =>
    subst hm
    rcases hchain : g.chain active (some id) with ⟨nodes, cut⟩
    rw [outline_eq hchain] at h
    obtain ⟨rfl, hbodies⟩ := Outline.uncut_ofNodes h
    rcases mem_chain_or_below hchain hreach hget with hmem | ⟨n, hn, b, hb, hbelow⟩
    · rw [← id_of_get? hget]
      exact (mem_chain hchain hmem).2.1
    · have hbody := hbodies n hn
      rw [bodyOutline_eq, hb] at hbody
      have hinactive := ih _ (unmarked_chain hchain hn) hbody hbelow rfl
      exact fun hactive => hinactive (List.mem_append_right _ hactive)

/-- A loop that links lead to, with the first node of its body. -/
structure LeadsToLoop (g : Graph) (start : NodeId) (r : Node) (b : NodeId) : Prop where
  reaches : ReflTransGen g.Leads start r.id
  get? : g.get? r.id = some r
  link : r.link .body = some b

/-- The body of a loop leads to a node that also comes after the loop. -/
def Rejoins (g : Graph) (start y : NodeId) : Prop :=
  ∃ r b, g.LeadsToLoop start r b ∧ ReflTransGen g.Leads b y ∧ TransGen g.Precedes r.id y ∧
    (g.get? y).isSome

theorem not_rejoins_of_uncut {id y : NodeId} (h : (g.outline active (some id)).Uncut) :
    ¬ g.Rejoins id y := by
  rintro ⟨r, b, ⟨hreach, hr, hb⟩, hbelow, hafter, hsome⟩
  obtain ⟨m, hm⟩ := Option.isSome_iff_exists.1 hsome
  induction hk : unmarked g.ids active using Nat.strongRecOn generalizing active id with
  | ind k ih =>
    subst hk
    rcases hchain : g.chain active (some id) with ⟨nodes, cut⟩
    rw [outline_eq hchain] at h
    obtain ⟨rfl, hbodies⟩ := Outline.uncut_ofNodes h
    have hbody : ∀ {n c}, n ∈ nodes → n.link .body = some c →
        (g.outline (nodes.map Node.id ++ active) (some c)).Uncut := by
      intro n c hn hc
      have huncut := hbodies n hn
      rwa [bodyOutline_eq, hc] at huncut
    rcases mem_chain_or_below hchain hreach hr with hmem | ⟨n, hn, c, hc, hbelow'⟩
    · -- the chain of the loop goes on to the node, which is active in the body
      have hy := mem_chain_of_precedes hchain hmem hafter.to_reflTransGen hm
      apply inactive_of_uncut (hbody hmem hb) hbelow hm
      apply List.mem_append_left
      rw [← id_of_get? hm]
      exact List.mem_map_of_mem hy
    · exact ih _ (unmarked_chain hchain hn) (hbody hn hc) hbelow' rfl

/-! ## Why chains are cut -/

/-- While the chain from a link is lowered, the active nodes are those of the chains around it: each
is before or after a loop whose body leads to the link. -/
structure Encloses (g : Graph) (first : NodeId) (active : List NodeId) (start : Option NodeId) :
    Prop where
  reaches : ∀ id ∈ start, ReflTransGen g.Leads first id
  loop : ∀ a ∈ active, ∀ id ∈ start, ∃ r b, g.LeadsToLoop first r b ∧
    ReflTransGen g.Leads b id ∧
    (ReflTransGen g.Precedes a r.id ∨ ReflTransGen g.Precedes r.id a)

namespace Encloses

variable {first : NodeId}

theorem refl (first : NodeId) : g.Encloses first [] (some first) where
  reaches id hid := by cases hid; exact .refl
  loop a ha := absurd ha List.not_mem_nil

/-- From a chain to the body of one of its loops. -/
theorem body (h : g.Encloses first active start) (hchain : g.chain active start = (nodes, cut))
    {n : Node} (hn : n ∈ nodes) :
    g.Encloses first (nodes.map Node.id ++ active) (n.link .body) := by
  obtain ⟨hget, -, id, hid, hreach⟩ := mem_chain hchain hn
  have hloop : ∀ {b}, n.link .body = some b → g.LeadsToLoop first n b := by
    intro b hb
    exact ⟨(h.reaches id hid).trans (leads_of_precedes hreach), hget, hb⟩
  refine ⟨fun b hb => (hloop hb).reaches.tail ⟨n, .body, hget, hb⟩, fun a ha b hb => ?_⟩
  rcases List.mem_append.1 ha with ha | ha
  · obtain ⟨m, hm, rfl⟩ := List.mem_map.1 ha
    exact ⟨n, b, hloop hb, .refl, chain_comparable hchain hm hn⟩
  · obtain ⟨r, c, hr, hbelow, hside⟩ := h.loop a ha id hid
    refine ⟨r, c, hr, ?_, hside⟩
    exact (hbelow.trans (leads_of_precedes hreach)).tail ⟨n, .body, hget, hb⟩

/-- The cut of the chain itself. -/
theorem of_cut (h : g.Encloses first active start) {y : NodeId}
    (hchain : g.chain active start = (nodes, some y)) :
    g.OnCycle first y ∨ g.Rejoins first y := by
  obtain ⟨hsome, ⟨id, hid, hreach⟩, hactive | hcycle⟩ := chain_cut hchain
  · obtain ⟨r, b, hr, hbelow, hside⟩ := h.loop y hactive id hid
    have hy := hbelow.trans (leads_of_precedes hreach)
    have hfirst := (h.reaches id hid).trans (leads_of_precedes hreach)
    have hback : ReflTransGen g.Leads y r.id → g.OnCycle first y := fun hyr =>
      ⟨hfirst, (TransGen.tail' hyr ⟨r, .body, hr.get?, hr.link⟩).trans_left hy⟩
    rcases hside with hbefore | hafter
    · exact .inl (hback (leads_of_precedes hbefore))
    · rcases Relation.reflTransGen_iff_eq_or_transGen.1 hafter with rfl | hafter
      · exact .inl (hback .refl)
      · exact .inr ⟨r, b, hr, hy, hafter, hsome⟩
  · refine .inl ⟨(h.reaches id hid).trans (leads_of_precedes hreach), ?_⟩
    exact transGen_leads_of_precedes hcycle

end Encloses

end Graph

theorem Outline.cyclicChain_mem_ofNodes {body : Node → Outline} {cut : Option NodeId}
    {nodes : List Node} {y : NodeId}
    (h : .cyclicChain y ∈ (ofNodes body cut nodes).warnings) :
    cut = some y ∨ ∃ n ∈ nodes, .cyclicChain y ∈ (body n).warnings := by
  induction nodes with
  | nil =>
    cases cut with
    | none => exact absurd h List.not_mem_nil
    | some id =>
      cases List.mem_singleton.1 h
      exact .inl rfl
  | cons n rest ih =>
    rcases mem_warnings_node.1 h with hrest | hbody | hown
    · rcases ih hrest with hcut | ⟨m, hm, hbelow⟩
      · exact .inl hcut
      · exact .inr ⟨m, List.mem_cons_of_mem _ hm, hbelow⟩
    · exact .inr ⟨n, List.mem_cons_self, hbody⟩
    · unfold Node.warnings at hown
      split at hown
      · cases List.mem_singleton.1 hown
      · exact absurd hown List.not_mem_nil

namespace Graph

variable {g : Graph}

/-- **Every cut has a reason**: a cycle of links, or a body that leads behind its loop. -/
theorem cut_explained {first y : NodeId} {active : List NodeId} {start : Option NodeId}
    (hactive : g.Encloses first active start)
    (h : .cyclicChain y ∈ (g.outline active start).warnings) :
    g.OnCycle first y ∨ g.Rejoins first y := by
  induction hm : unmarked g.ids active using Nat.strongRecOn generalizing active start with
  | ind k ih =>
    subst hm
    rcases hchain : g.chain active start with ⟨nodes, cut⟩
    rw [outline_eq hchain] at h
    rcases Outline.cyclicChain_mem_ofNodes h with rfl | ⟨n, hn, hbelow⟩
    · exact hactive.of_cut hchain
    · rw [bodyOutline_eq] at hbelow
      exact ih _ (unmarked_chain hchain hn) (hactive.body hchain hn) hbelow rfl

/-- Links that go up by a measure close no cycle. -/
theorem not_cyclic_of_rank (rank : NodeId → Nat)
    (h : ∀ n ∈ g.nodes, ∀ id ∈ n.links, rank n.id < rank id) (start : NodeId) :
    ¬ g.Cyclic start := by
  rintro ⟨a, -, hcycle⟩
  have hlt : ∀ {b}, TransGen g.Leads a b → rank a < rank b := by
    intro b hb
    have hlead : ∀ {c d}, g.Leads c d → rank c < rank d := by
      rintro c d ⟨n, way, hget, hlink⟩
      rw [← id_of_get? hget]
      apply h n (mem_of_get? hget)
      cases way with
      | next => exact List.mem_append_left _ (Option.mem_toList.2 hlink)
      | body =>
        rw [Node.link] at hlink
        split at hlink
        · exact List.mem_append_right _ (Option.mem_toList.2 hlink)
        · cases hlink
    induction hb with
    | single hab => exact hlead hab
    | tail _ hbc ih => exact ih.trans (hlead hbc)
  exact Nat.lt_irrefl _ (hlt hcycle)

end Graph

namespace Lowering

variable (σ : Type) [HasSink σ]

/-- **Where chains are cut although no links close a cycle.** Each cut is at a node to which the
body of a loop leads and which also comes after the loop. If there is such a node there is a cut,
and if there is none the thread is lowered whole, however many links lead to a node. -/
theorem cuts_without_cycle (g : Graph) (start : NodeId) (hacyclic : ¬ g.Cyclic start) :
    let thread := compileThread (Registry.standard σ).rules g start
    (∀ id, .cyclicChain id ∈ thread.2 → g.Rejoins start id) ∧
    ((∃ id, g.Rejoins start id) → ∃ id, .cyclicChain id ∈ thread.2) ∧
    ((∀ id, ¬ g.Rejoins start id) →
      (∀ id, .cyclicChain id ∉ thread.2) ∧ ∃ o, LoweredWhole g start o thread.1) := by
  intro thread
  have hexplained : ∀ id, .cyclicChain id ∈ thread.2 → g.Rejoins start id := by
    intro id hid
    rw [compileThread_warnings] at hid
    rcases Graph.cut_explained (.refl start) hid with hcycle | hrejoins
    · exact absurd ⟨id, hcycle⟩ hacyclic
    · exact hrejoins
  refine ⟨hexplained, fun ⟨id, hrejoins⟩ => ?_, fun hnone => ?_⟩
  · by_contra hnone
    have huncut := uncut_of_no_cut σ fun id hid => hnone ⟨id, hid⟩
    exact Graph.not_rejoins_of_uncut huncut hrejoins
  · have huncut : ∀ id, .cyclicChain id ∉ thread.2 := fun id hid => hnone id (hexplained id hid)
    exact ⟨huncut, _, loweredWhole_of_warnings σ huncut⟩

/-- A line that is sung twice and then once more: the loop and its body lead to the same node. -/
def refrain : Graph :=
  ⟨[⟨"s", "start", ∅, some "twice", none⟩, ⟨"twice", "repeat", ∅, some "line", some "line"⟩,
      ⟨"line", "print", ∅, none, none⟩], by decide⟩

/-- Two loops after each other with one body. -/
def canon : Graph :=
  ⟨[⟨"s", "start", ∅, some "twice", none⟩, ⟨"twice", "repeat", ∅, some "again", some "line"⟩,
      ⟨"again", "repeat", ∅, none, some "line"⟩, ⟨"line", "print", ∅, none, none⟩], by decide⟩

theorem not_cyclic_refrain : ¬ refrain.Cyclic "s" :=
  Graph.not_cyclic_of_rank (["s", "twice", "line"].idxOf ·) (by decide) "s"

theorem cuts_without_cycle_refrain :
    ¬ refrain.Cyclic "s" ∧ refrain.Rejoins "s" "line" ∧
      ¬ canon.Cyclic "s" ∧ (∀ id, ¬ canon.Rejoins "s" id) ∧
      ∃ o, LoweredWhole canon "s" o (compileThread (Registry.standard Sink).rules canon "s").1 := by
  have hcanon : ¬ canon.Cyclic "s" :=
    Graph.not_cyclic_of_rank (["s", "twice", "again", "line"].idxOf ·) (by decide) "s"
  obtain ⟨hcut, -, -⟩ := cuts_without_cycle Sink refrain "s" not_cyclic_refrain
  obtain ⟨-, hreported, hwhole⟩ := cuts_without_cycle Sink canon "s" hcanon
  have hwarnings : (compileThread (Registry.standard Sink).rules canon "s").2 = [] := by
    decide +kernel
  have hnone : ∀ id, ¬ canon.Rejoins "s" id := by
    intro id hid
    obtain ⟨id', hid'⟩ := hreported ⟨id, hid⟩
    rw [hwarnings] at hid'
    exact absurd hid' List.not_mem_nil
  exact ⟨not_cyclic_refrain, hcut "line" (by decide +kernel), hcanon, hnone, (hwhole hnone).2⟩

/-- The body of the loop is cut off and a cycle reported, although the links close none. -/
theorem cycle_reported_without_cycle :
    ¬ refrain.Cyclic "s" ∧
      (compileThread (Registry.standard Sink).rules refrain "s").2 = [.cyclicChain "line"] ∧
      (refrain.nodeAt? (some "s") [.next, .body]).isSome ∧
      ((threadOutline refrain "s").nodeAt? [.next, .body]).isNone := by
  exact ⟨not_cyclic_refrain, by decide +kernel, by decide, by decide +kernel⟩

end Lowering

end TuneBlocks
