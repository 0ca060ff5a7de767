import Mathlib.Data.List.Perm.Subperm
import Mathlib.Data.Set.Card
import TuneBlocks.Proofs.Cuts
import TuneBlocks.Proofs.LoopCode

/-!
# Nodes that are gone around

Lowering makes nothing of a node of an unknown type, and nothing of a link to a missing node. So
links can be redirected around them: to the next node of a known type, or to nothing
(`Graph.spliced`, `Graph.trimmed`).

Both are a `Graph.relink`, which keeps some nodes and sends every link to a kept one. What makes it
take chains to chains is said by `Graph.Bridges`, and from there it takes outlines to outlines
without the dropped nodes (`Bridges.outline_relink`). Those take no label and no block, so the code
is the same (`Outline.code_relink`), and all that they leave is a warning each time they are lowered
(`Outline.warnings_of_uncut`, `Outline.ncard_routes`).
-/

namespace TuneBlocks

/-! ## Changed links -/

namespace Node

/-- The node with other links. -/
def relink (redirect : Option NodeId → Option NodeId) (n : Node) : Node :=
  { n with next := redirect n.next, body := redirect n.body }

variable (redirect : Option NodeId → Option NodeId) (n : Node)

@[simp] theorem next_relink : (n.relink redirect).next = redirect n.next := rfl

/-- What a node is does not depend on its links. -/
@[simp] theorem kind_relink : (n.relink redirect).kind = n.kind := rfl

@[simp] theorem entry_relink : (n.relink redirect).entry = n.entry := rfl

@[simp] theorem bodyExit_relink : (n.relink redirect).bodyExit = n.bodyExit := rfl

@[simp] theorem blocks_relink : (n.relink redirect).blocks = n.blocks := rfl

@[simp] theorem warnings_relink : (n.relink redirect).warnings = n.warnings := rfl

theorem warnings_of_known {n : Node} (h : n.kind ≠ .unknown) : n.warnings = [] := by
  cases hkind : n.kind with
  | unknown => exact absurd hkind h
  | _ => simp only [warnings, hkind]

theorem warnings_of_unknown {n : Node} (h : n.kind = .unknown) :
    n.warnings = [.unknownType n.id n.type] := by
  simp only [warnings, h]

theorem mem_warnings_iff {n : Node} {w : Warning} :
    w ∈ n.warnings ↔ n.kind = .unknown ∧ w = .unknownType n.id n.type := by
  by_cases h : n.kind = .unknown
  · rw [warnings_of_unknown h, List.mem_singleton]
    exact ⟨fun hw => ⟨h, hw⟩, And.right⟩
  · rw [warnings_of_known h]
    exact ⟨fun hw => absurd hw List.not_mem_nil, fun hw => absurd hw.1 h⟩

end Node

namespace Graph

/-- The graph with other links. -/
def relink (redirect : Option NodeId → Option NodeId) (g : Graph) : Graph where
  nodes := g.nodes.map (Node.relink redirect)
  nodup_ids := by
    rw [List.map_map]
    exact g.nodup_ids

theorem get?_relink (redirect : Option NodeId → Option NodeId) (g : Graph) (id : NodeId) :
    (g.relink redirect).get? id = (g.get? id).map (Node.relink redirect) :=
  List.find?_map

theorem get?_relink_of_get? (redirect : Option NodeId → Option NodeId) {g : Graph} {id : NodeId}
    {n : Node} (h : g.get? id = some n) :
    (g.relink redirect).get? id = some (n.relink redirect) := by
  rw [get?_relink, h, Option.map_some]

/-- The graph without links to missing nodes. -/
def trimmed (g : Graph) : Graph := g.relink fun link => link.filter (· ∈ g.ids)

/-- The first node of a known type along `next`, if there is one within a number of nodes. -/
def firstKnown? (g : Graph) : Nat → Option NodeId → Option NodeId
  | 0, _ => none
  | within + 1, link =>
    match link.bind g.get? with
    | some n => if n.kind = .unknown then g.firstKnown? within n.next else some n.id
    | none => none

/-- A link to a node of an unknown type goes to the next one of a known type instead. -/
def bypass (g : Graph) (link : Option NodeId) : Option NodeId :=
  match link.bind g.get? with
  | some n => if n.kind = .unknown then g.firstKnown? g.nodes.length link else link
  | none => link

/-- The graph with links around the nodes of unknown types. -/
def spliced (g : Graph) : Graph := g.relink g.bypass

/-! ## Chains -/

/-- Redirected links lead to kept nodes: a link to a kept node stays, one to a dropped node leads
where that node would lead, and one to no node still leads to none. -/
structure Bridges (g : Graph) (keep : Node → Bool) (redirect : Option NodeId → Option NodeId) :
    Prop where
  nowhere {link : Option NodeId} : link.bind g.get? = none → (redirect link).bind g.get? = none
  kept {n : Node} : g.get? n.id = some n → keep n = true →
    (redirect (some n.id)).bind g.get? = some n
  dropped {n : Node} : g.chain active (some n.id) = (n :: rest, none) → keep n = false →
    (redirect (some n.id)).bind g.get? = (redirect n.next).bind g.get?

variable {g : Graph} {active active' : List NodeId} {start cut : Option NodeId}
  {nodes : List Node} {keep : Node → Bool} {redirect : Option NodeId → Option NodeId}

theorem link_of_bind {link : Option NodeId} {n : Node} (h : link.bind g.get? = some n) :
    link = some n.id ∧ g.get? n.id = some n := by
  obtain ⟨id, rfl, hget⟩ := Option.bind_eq_some_iff.1 h
  obtain rfl := id_of_get? hget
  exact ⟨rfl, hget⟩

theorem bind_relink (link : Option NodeId) :
    link.bind (g.relink redirect).get? = (link.bind g.get?).map (Node.relink redirect) := by
  cases link with
  | none => rfl
  | some id => exact get?_relink redirect g id

/-- Only the node that a link leads to matters. -/
theorem chain_congr {link link' : Option NodeId} (h : link.bind g.get? = link'.bind g.get?)
    (active : List NodeId) : g.chain active link = g.chain active link' := by
  cases hlink : link.bind g.get? with
  | none => rw [chain_of_nowhere hlink, chain_of_nowhere (h.symm.trans hlink)]
  | some n => rw [(link_of_bind hlink).1, (link_of_bind (h.symm.trans hlink)).1]

theorem chain_nil_cut {y : NodeId} (h : g.chain active start = ([], some y)) :
    start = some y ∧ y ∈ active ∧ ∃ n, g.get? y = some n := by
  unfold chain at h
  split at h
  · cases h
  · split at h
    · cases h
    · split at h
      · cases h
        exact ⟨rfl, ‹_›, _, ‹_›⟩
      · cases h

/-- The lists agree on which kept nodes are active. -/
def Alike (g : Graph) (keep : Node → Bool) (active' active : List NodeId) : Prop :=
  ∀ n, g.get? n.id = some n → keep n = true → (n.id ∈ active' ↔ n.id ∈ active)

theorem Alike.cons_kept (h : g.Alike keep active' active) (id : NodeId) :
    g.Alike keep (id :: active') (id :: active) := by
  intro n hget hkeep
  rw [List.mem_cons, List.mem_cons, h n hget hkeep]

theorem Alike.cons_dropped (h : g.Alike keep active' active) {m : Node}
    (hm : g.get? m.id = some m) (hkeep : keep m = false) :
    g.Alike keep active' (m.id :: active) := by
  intro n hget hkept
  rw [List.mem_cons, h n hget hkept]
  refine ⟨.inr, fun hmem => hmem.resolve_left fun hid => ?_⟩
  rw [hid, hm] at hget
  cases hget
  rw [hkeep] at hkept
  cases hkept

theorem Alike.append (h : g.Alike keep active' active)
    (hnodes : ∀ n ∈ nodes, g.get? n.id = some n) :
    g.Alike keep ((nodes.filter keep).map Node.id ++ active') (nodes.map Node.id ++ active) := by
  intro n hget hkeep
  rw [List.mem_append, List.mem_append, h n hget hkeep]
  refine or_congr_left ⟨fun hmem => ?_, fun hmem => ?_⟩
  · exact List.map_subset _ List.filter_sublist.subset hmem
  · obtain ⟨m, hm, hid⟩ := List.mem_map.1 hmem
    have hsame := hnodes m hm
    rw [hid, hget] at hsame
    cases hsame
    exact List.mem_map.2 ⟨n, List.mem_filter.2 ⟨hm, hkeep⟩, rfl⟩

/-- **Chains become chains of the kept nodes.** The chain must not be cut if nodes are dropped. -/
theorem Bridges.chain_relink (h : g.Bridges keep redirect)
    (hchain : g.chain active start = (nodes, cut))
    (hcut : cut = none ∨ ∀ n, keep n = true) (hactive : g.Alike keep active' active) :
    (g.relink redirect).chain active' (redirect start) =
      ((nodes.filter keep).map (Node.relink redirect), cut) := by
  induction nodes generalizing active active' start with
  | nil =>
    cases cut with
    | none =>
      apply chain_of_nowhere
      rw [bind_relink, h.nowhere (chain_nil hchain)]
      rfl
    | some y =>
      obtain ⟨rfl, hy, n, hget⟩ := chain_nil_cut hchain
      have hkeep := (hcut.resolve_left (Option.some_ne_none y)) n
      obtain rfl := id_of_get? hget
      obtain ⟨hlink, -⟩ := link_of_bind (h.kept hget hkeep)
      rw [hlink]
      exact chain_of_active (get?_relink_of_get? redirect hget) ((hactive n hget hkeep).2 hy)
  | cons n rest ih =>
    obtain ⟨rfl, hget, hid, hrest⟩ := chain_cons hchain
    cases hkeep : keep n with
    | true =>
      obtain ⟨hlink, -⟩ := link_of_bind (h.kept hget hkeep)
      have hid' : n.id ∉ active' := fun hmem => hid ((hactive n hget hkeep).1 hmem)
      rw [hlink, chain_of_node (get?_relink_of_get? redirect hget) hid', Node.next_relink,
        ih hrest (hactive.cons_kept n.id), List.filter_cons_of_pos hkeep, List.map_cons]
    | false =>
      obtain rfl : cut = none := hcut.resolve_right fun hall => by
        rw [hall n] at hkeep
        cases hkeep
      have htarget : (redirect (some n.id)).bind (g.relink redirect).get? =
          (redirect n.next).bind (g.relink redirect).get? := by
        rw [bind_relink, bind_relink, h.dropped hchain hkeep]
      rw [chain_congr htarget, List.filter_cons_of_neg (by simp [hkeep])]
      exact ih hrest (hactive.cons_dropped hget hkeep)

end Graph

/-! ## Outlines -/

namespace Outline

/-- The outline of the kept nodes, with other links. -/
def relink (keep : Node → Bool) (redirect : Option NodeId → Option NodeId) : Outline → Outline
  | .ending cut => .ending cut
  | .node n body rest =>
    if keep n then .node (n.relink redirect) (body.relink keep redirect) (rest.relink keep redirect)
    else rest.relink keep redirect

variable {keep : Node → Bool} {redirect : Option NodeId → Option NodeId}

theorem relink_ofNodes {body body' : Node → Outline} (cut : Option NodeId) {nodes : List Node}
    (h : ∀ n ∈ nodes, body' (n.relink redirect) = (body n).relink keep redirect) :
    (ofNodes body cut nodes).relink keep redirect =
      ofNodes body' cut ((nodes.filter keep).map (Node.relink redirect)) := by
  induction nodes with
  | nil => rfl
  | cons n rest ih =>
    obtain ⟨hn, hrest⟩ := List.forall_mem_cons.1 h
    cases hkeep : keep n with
    | true =>
      rw [ofNodes, relink, if_pos hkeep, ih hrest, ← hn, List.filter_cons_of_pos hkeep,
        List.map_cons, ofNodes]
    | false =>
      have hdropped : ¬ keep n = true := Bool.not_eq_true _ ▸ hkeep
      rw [ofNodes, relink, if_neg hdropped, ih hrest, List.filter_cons_of_neg hdropped]

end Outline

/-- **Outlines become outlines of the kept nodes.** -/
theorem Graph.Bridges.outline_relink {g : Graph} {keep : Node → Bool}
    {redirect : Option NodeId → Option NodeId} (h : g.Bridges keep redirect)
    {active active' : List NodeId} {start : Option NodeId}
    (hcut : (g.outline active start).Uncut ∨ ∀ n, keep n = true)
    (hactive : g.Alike keep active' active) :
    (g.relink redirect).outline active' (redirect start) =
      (g.outline active start).relink keep redirect := by
  induction hm : unmarked g.ids active using Nat.strongRecOn generalizing active active' start with
  | ind m ih =>
    subst hm
    rcases hchain : g.chain active start with ⟨nodes, cut⟩
    rw [outline_eq hchain] at hcut
    have hcuts := hcut.imp_left Outline.uncut_ofNodes
    have hinner := hactive.append fun n hn => (mem_chain hchain hn).1
    rw [outline_eq hchain, outline_eq (h.chain_relink hchain (hcuts.imp_left And.left) hactive)]
    refine (Outline.relink_ofNodes cut fun n hn => ?_).symm
    have hbody := hcuts.imp_left fun huncut => huncut.2 n hn
    cases hloop : n.kind.isLoop with
    | true =>
      simp only [bodyOutline, Node.kind_relink, hloop, ↓reduceIte, List.map_map] at hbody ⊢
      exact ih _ (unmarked_chain hchain hn) hbody hinner rfl
    | false =>
      simp only [bodyOutline, Node.kind_relink, hloop]
      rfl

namespace Outline

variable {o : Outline} {keep : Node → Bool}

/-- **The code is that of the kept nodes**, if those that are dropped are of unknown types. -/
theorem code_relink (redirect : Option NodeId → Option NodeId)
    (hkeep : ∀ n, keep n = false → n.kind = .unknown) (htidy : o.Tidy) :
    (o.relink keep redirect).size = o.size ∧ ∀ a exit,
      (o.relink keep redirect).entry a exit = o.entry a exit ∧
        (o.relink keep redirect).code a exit = o.code a exit := by
  induction o with
  | ending cut => exact ⟨rfl, fun _ _ => ⟨rfl, rfl⟩⟩
  | node n body rest ihbody ihrest =>
    obtain ⟨hplain, hbody, hrest⟩ := htidy
    obtain ⟨hsize, hrest⟩ := ihrest hrest
    have hentry := fun a exit => (hrest a exit).1
    have hcode := fun a exit => (hrest a exit).2
    cases hn : keep n with
    | true =>
      obtain ⟨hsize', hbody⟩ := ihbody hbody
      have hentry' := fun a exit => (hbody a exit).1
      have hcode' := fun a exit => (hbody a exit).2
      rw [relink, if_pos hn]
      refine ⟨?_, fun a exit => ⟨?_, ?_⟩⟩
      · simp only [size, Node.kind_relink, hsize, hsize']
      · simp only [entry, Node.entry_relink, hsize, hentry]
      · simp only [code, Node.kind_relink, Node.blocks_relink, Node.bodyExit_relink, hsize, hentry,
          hcode, hentry', hcode']
    | false =>
      -- the node takes no label, and it has no body
      have hunknown := hkeep n hn
      have hempty := hplain (by rw [hunknown]; rfl)
      rw [relink, if_neg (Bool.not_eq_true _ ▸ hn), hempty]
      refine ⟨?_, fun a exit => ⟨?_, ?_⟩⟩
      · simp only [size, hsize, hunknown, Kind.width, Nat.add_zero]
      · simp only [entry, Node.entry, hunknown, hentry]
      · simp only [code, Node.blocks, hunknown, hcode, List.append_nil]

/-! ## Warnings -/

/-- Other links alone do not change the warnings. -/
theorem warnings_relink (redirect : Option NodeId → Option NodeId) (o : Outline) :
    (o.relink (fun _ => true) redirect).warnings = o.warnings := by
  have h : (o.relink (fun _ => true) redirect).cut? = o.cut? ∧
      (o.relink (fun _ => true) redirect).nodeWarnings = o.nodeWarnings := by
    induction o with
    | ending cut => exact ⟨rfl, rfl⟩
    | node n body rest ihbody ihrest =>
      refine ⟨ihrest.1, ?_⟩
      simp only [relink, ↓reduceIte, nodeWarnings, Node.warnings_relink, ihbody, ihrest]
  rw [warnings, h.1, h.2, warnings]

theorem Uncut.cut? (h : o.Uncut) : o.cut? = none := by
  induction o with
  | ending cut => exact h
  | node n body rest _ ih => exact ih h.2

/-- Without cuts, the warnings are those of the nodes. -/
theorem warnings_of_uncut (h : o.Uncut) : o.warnings = o.nodes.flatMap Node.warnings := by
  induction o with
  | ending cut =>
    obtain rfl : cut = none := h
    rfl
  | node n body rest ihbody ihrest =>
    have hbody : body.nodeWarnings = body.nodes.flatMap Node.warnings := by
      rw [← ihbody h.1, warnings, h.1.cut?]
      rfl
    have hrest : rest.nodeWarnings = rest.nodes.flatMap Node.warnings := by
      rw [← ihrest h.2, warnings, h.2.cut?]
      rfl
    rw [warnings, Uncut.cut? h, nodeWarnings, h.1.cut?, hbody, hrest]
    simp [cutWarnings, nodes]

theorem Uncut.relink (redirect : Option NodeId → Option NodeId) (h : o.Uncut) :
    (o.relink keep redirect).Uncut := by
  induction o with
  | ending cut => exact h
  | node n body rest ihbody ihrest =>
    unfold Outline.relink
    split
    · exact ⟨ihbody h.1, ihrest h.2⟩
    · exact ihrest h.2

theorem keep_of_mem_relink {redirect : Option NodeId → Option NodeId} {m : Node}
    (h : m ∈ (o.relink keep redirect).nodes) : ∃ n, keep n = true ∧ m = n.relink redirect := by
  induction o with
  | ending cut => cases h
  | node n body rest ihbody ihrest =>
    unfold relink at h
    split at h
    · simp only [nodes, List.mem_append, List.mem_singleton] at h
      rcases h with h | h | h
      · exact ihrest h
      · exact ihbody h
      · exact ⟨n, ‹_›, h⟩
    · exact ihrest h

/-- Without cuts and without nodes of unknown types there is nothing to warn of. -/
theorem Uncut.warnings_relink_known (h : o.Uncut) (redirect : Option NodeId → Option NodeId) :
    (o.relink (fun n => n.kind ≠ .unknown) redirect).warnings = [] := by
  rw [warnings_of_uncut (h.relink redirect), List.flatMap_eq_nil_iff]
  intro m hm
  obtain ⟨n, hn, rfl⟩ := keep_of_mem_relink hm
  exact Node.warnings_of_known (of_decide_eq_true hn)

/-- Each node is in the outline as often as routes lead to it. -/
theorem ncard_routes (o : Outline) (n : Node) :
    {route | o.nodeAt? route = some n}.Finite ∧
      {route | o.nodeAt? route = some n}.ncard = o.nodes.count n := by
  have hfinite : ∀ o : Outline, {route | o.nodeAt? route = some n}.Finite := fun o =>
    o.finite_routes.subset fun route hroute => Option.isSome_iff_exists.2 ⟨n, hroute⟩
  refine ⟨hfinite o, ?_⟩
  induction o with
  | ending cut =>
    have hnone : {route | (ending cut).nodeAt? route = some n} = ∅ :=
      Set.eq_empty_iff_forall_notMem.2 fun route hroute => Option.some_ne_none n hroute.symm
    rw [hnone, Set.ncard_empty]
    rfl
  | node m body rest ihbody ihrest =>
    have hsplit : {route | (node m body rest).nodeAt? route = some n} =
        (Way.next :: ·) '' {route | rest.nodeAt? route = some n} ∪
          ((Way.body :: ·) '' {route | body.nodeAt? route = some n} ∪
            {route | route = [] ∧ m = n}) := by
      ext route
      match route with
      | [] => simp [nodeAt?]
      | .next :: route => simp [nodeAt?]
      | .body :: route => simp [nodeAt?]
    have hown : {route : List Way | route = [] ∧ m = n}.ncard = [m].count n := by
      by_cases hm : m = n
      · simp [hm]
      · simp [hm]
    have hempty : {route : List Way | route = [] ∧ m = n}.Finite :=
      (Set.finite_singleton []).subset fun _ hroute => hroute.1
    have hbelow := ((hfinite body).image (Way.body :: ·)).union hempty
    rw [hsplit, Set.ncard_union_eq ?_ ((hfinite rest).image _) hbelow,
      Set.ncard_union_eq ?_ ((hfinite body).image _) hempty,
      Set.ncard_image_of_injective _ List.cons_injective,
      Set.ncard_image_of_injective _ List.cons_injective, ihrest, ihbody, hown, nodes,
      List.count_append, List.count_append]
    · rw [Set.disjoint_left]
      rintro _ ⟨route, -, rfl⟩ ⟨hroute, -⟩
      cases hroute
    · rw [Set.disjoint_left]
      rintro _ ⟨route, -, rfl⟩ (⟨route', -, hroute⟩ | ⟨hroute, -⟩) <;> cases hroute

end Outline

/-! ## Links around nodes -/

namespace Graph

variable {g : Graph} {active : List NodeId} {link cut : Option NodeId} {nodes : List Node}
  {n : Node}

theorem bridges_trimmed (g : Graph) :
    g.Bridges (fun _ => true) fun link => link.filter (· ∈ g.ids) where
  nowhere {link} h := by
    cases link with
    | none => rfl
    | some id =>
      have hid : id ∉ g.ids := get?_eq_none_iff.1 h
      rw [Option.filter_some_neg (by simpa using hid), Option.bind_none]
  kept {n} hget _ := by
    have hid : n.id ∈ g.ids := List.mem_map_of_mem (mem_of_get? hget)
    rw [Option.filter_some_pos (by simpa using hid), Option.bind_some, hget]
  dropped _ h := by cases h

theorem nodup_chain (h : g.chain active link = (nodes, cut)) : (nodes.map Node.id).Nodup := by
  induction nodes generalizing active link with
  | nil => exact .nil
  | cons n rest ih =>
    obtain ⟨-, -, -, hrest⟩ := chain_cons h
    refine List.nodup_cons.2 ⟨fun hmem => ?_, ih hrest⟩
    obtain ⟨m, hm, hid⟩ := List.mem_map.1 hmem
    exact (mem_chain hrest hm).2.1 (hid ▸ List.mem_cons_self)

theorem length_chain_le (h : g.chain active link = (nodes, cut)) :
    nodes.length ≤ g.nodes.length := by
  have hsub : nodes.map Node.id ⊆ g.ids := by
    intro id hid
    obtain ⟨n, hn, rfl⟩ := List.mem_map.1 hid
    exact List.mem_map_of_mem (mem_of_get? (mem_chain h hn).1)
  have hle := (List.subperm_of_subset (nodup_chain h) hsub).length_le
  rwa [ids, List.length_map, List.length_map] at hle

theorem firstKnown?_of_chain (h : g.chain active link = (nodes, none)) {within : Nat}
    (hle : nodes.length ≤ within) :
    g.firstKnown? within link = (nodes.find? fun n => n.kind ≠ .unknown).map Node.id := by
  induction nodes generalizing active link within with
  | nil =>
    cases within with
    | zero => rfl
    | succ within => rw [firstKnown?, chain_nil h, List.find?_nil, Option.map_none]
  | cons n rest ih =>
    obtain ⟨rfl, hget, -, hrest⟩ := chain_cons h
    obtain ⟨within, rfl⟩ := Nat.exists_eq_succ_of_ne_zero (Nat.ne_zero_of_lt hle)
    simp only [firstKnown?, Option.bind_some, hget]
    by_cases hkind : n.kind = .unknown
    · rw [if_pos hkind, ih hrest (Nat.le_of_succ_le_succ hle),
        List.find?_cons_of_neg (by simp [hkind])]
    · rw [if_neg hkind, List.find?_cons_of_pos (by simp [hkind]), Option.map_some]

theorem bypass_of_nowhere (h : link.bind g.get? = none) : g.bypass link = link := by
  rw [bypass, h]

theorem bypass_of_known (h : g.get? n.id = some n) (hkind : n.kind ≠ .unknown) :
    g.bypass (some n.id) = some n.id := by
  simp only [bypass, Option.bind_some, h, if_neg hkind]

/-- A link that leads into an uncut chain leads to its first node of a known type. -/
theorem bind_bypass_of_chain (h : g.chain active link = (nodes, none)) :
    (g.bypass link).bind g.get? = nodes.find? fun n => n.kind ≠ .unknown := by
  cases nodes with
  | nil =>
    have hlink := chain_nil h
    rw [bypass_of_nowhere hlink, hlink, List.find?_nil]
  | cons n rest =>
    obtain ⟨rfl, hget, -, -⟩ := chain_cons h
    by_cases hkind : n.kind = .unknown
    · have hfirst := firstKnown?_of_chain h (length_chain_le h)
      simp only [bypass, Option.bind_some, hget, if_pos hkind, hfirst]
      cases hfind : (n :: rest).find? fun n => n.kind ≠ .unknown with
      | none => rfl
      | some m => exact (mem_chain h (List.mem_of_find?_eq_some hfind)).1
    · rw [bypass_of_known hget hkind, Option.bind_some, hget,
        List.find?_cons_of_pos (by simp [hkind])]

theorem bridges_spliced (g : Graph) : g.Bridges (fun n => n.kind ≠ .unknown) g.bypass where
  nowhere h := by rw [bypass_of_nowhere h, h]
  kept hget hknown := by
    rw [bypass_of_known hget (of_decide_eq_true hknown), Option.bind_some, hget]
  dropped {_ rest n} hchain hunknown := by
    obtain ⟨-, -, -, hrest⟩ := chain_cons hchain
    rw [bind_bypass_of_chain hchain, bind_bypass_of_chain hrest,
      List.find?_cons_of_neg (by rw [hunknown]; exact Bool.false_ne_true)]

end Graph

/-! ## Threads -/

theorem count_warnings {nodes : List Node} {n : Node} (hkind : n.kind = .unknown)
    (hids : ∀ m ∈ nodes, m.id = n.id → m = n) :
    (nodes.flatMap Node.warnings).count (.unknownType n.id n.type) = nodes.count n := by
  induction nodes with
  | nil => rfl
  | cons m rest ih =>
    obtain ⟨hm, hrest⟩ := List.forall_mem_cons.1 hids
    have hown : m.warnings.count (.unknownType n.id n.type) = [m].count n := by
      by_cases hsame : m = n
      · subst hsame
        rw [Node.warnings_of_unknown hkind, List.count_singleton_self, List.count_singleton_self]
      · rw [List.count_eq_zero.2, List.count_eq_zero.2]
        · exact fun hmem => hsame (List.mem_singleton.1 hmem).symm
        · intro hmem
          obtain ⟨-, hw⟩ := Node.mem_warnings_iff.1 hmem
          exact hsame (hm (Warning.unknownType.inj hw).1.symm)
    rw [List.flatMap_cons, List.count_append, ih hrest, hown, ← List.count_append,
      List.singleton_append]

namespace Lowering

variable (σ : Type) [HasSink σ]

/-- The thread of a node that the redirected links still lead to has the code of the kept nodes. -/
theorem routine_relink {g : Graph} {keep : Node → Bool} {redirect : Option NodeId → Option NodeId}
    (h : g.Bridges keep redirect) (hkeep : ∀ n, keep n = false → n.kind = .unknown)
    {start : NodeId} (hstart : redirect (some start) = some start)
    (hcut : (threadOutline g start).Uncut ∨ ∀ n, keep n = true) :
    (compileThread (Registry.standard σ).rules (g.relink redirect) start).1 =
        (compileThread (Registry.standard σ).rules g start).1 ∧
      (compileThread (Registry.standard σ).rules (g.relink redirect) start).2 =
        ((threadOutline g start).relink keep redirect).warnings := by
  have houtline : threadOutline (g.relink redirect) start =
      (threadOutline g start).relink keep redirect := by
    have hactive : g.Alike keep [] [] := fun _ _ _ => Iff.rfl
    have hrelink := h.outline_relink hcut hactive
    rwa [hstart] at hrelink
  have hcode := (Outline.code_relink redirect hkeep (g.tidy_outline [] (some start))).2 1 threadEnd
  rw [compileThread_warnings, houtline]
  refine ⟨routine_congr σ ?_ ?_, rfl⟩
  · rw [houtline]
    exact hcode.1
  · rw [houtline]
    exact hcode.2

/-- **Nodes of unknown types and links to missing nodes are gone around.** Without the links to
missing nodes a thread is compiled as before, warnings included. If no chain is cut, links around
the nodes of unknown types give the same routine and no warning. All that such a node leaves is one
warning for each route that leads to it. -/
theorem unknown_spliced (g : Graph) (s : Node) (hs : s ∈ g.nodes) :
    let rules := (Registry.standard σ).rules
    let thread := compileThread rules g s.id
    compileThread rules g.trimmed s.id = thread ∧
    (s.kind ≠ .unknown → (∀ id, .cyclicChain id ∉ thread.2) →
      compileThread rules g.spliced s.id = (thread.1, []) ∧
      (∀ w ∈ thread.2, ∃ n ∈ g.nodes, n.kind = .unknown ∧ w = .unknownType n.id n.type) ∧
      ∀ n ∈ g.nodes, n.kind = .unknown →
        {route | g.nodeAt? (some s.id) route = some n}.Finite ∧
        thread.2.count (.unknownType n.id n.type) =
          {route | g.nodeAt? (some s.id) route = some n}.ncard) := by
  intro rules thread
  have hget : g.get? s.id = some s := Graph.get?_eq_some_iff.2 ⟨hs, rfl⟩
  refine ⟨?_, fun hknown hcycle => ?_⟩
  · have hid : s.id ∈ g.ids := List.mem_map_of_mem hs
    obtain ⟨hroutine, hwarnings⟩ := routine_relink σ g.bridges_trimmed
      (fun _ h => Bool.noConfusion h) (Option.filter_some_pos (by simpa using hid))
      (.inr fun _ => rfl)
    rw [Outline.warnings_relink, ← compileThread_warnings σ] at hwarnings
    exact Prod.ext hroutine hwarnings
  · have huncut := uncut_of_no_cut σ hcycle
    have hwarnings : thread.2 = (threadOutline g s.id).nodes.flatMap Node.warnings := by
      rw [← Outline.warnings_of_uncut huncut]
      exact compileThread_warnings σ g s.id
    have hmem : ∀ {n}, n ∈ (threadOutline g s.id).nodes → n ∈ g.nodes :=
      fun hn => Graph.mem_of_get? (Graph.get?_of_mem_nodes hn)
    refine ⟨?_, fun w hw => ?_, fun n hn hkind => ?_⟩
    · obtain ⟨hroutine, hnone⟩ := routine_relink σ g.bridges_spliced
        (fun n h => by simpa using h) (Graph.bypass_of_known hget hknown) (.inl huncut)
      exact Prod.ext hroutine (hnone.trans (huncut.warnings_relink_known g.bypass))
    · rw [hwarnings] at hw
      obtain ⟨n, hn, hw⟩ := List.mem_flatMap.1 hw
      exact ⟨n, hmem hn, Node.mem_warnings_iff.1 hw⟩
    · obtain ⟨hfinite, hcard⟩ := (threadOutline g s.id).ncard_routes n
      simp only [threadOutline, Graph.nodeAt?_outline [] (some s.id) huncut] at hfinite hcard
      refine ⟨hfinite, ?_⟩
      rw [hcard, hwarnings]
      exact count_warnings hkind fun m hm => Graph.eq_of_id_eq (hmem hm) hn

/-- Two loops with one body. Links lead to nodes of unknown types in a row, at the head and at the
end of chains, and to no node. -/
def medley : Graph :=
  ⟨[⟨"s", "start", ∅, some "hiss", none⟩, ⟨"hiss", "noise", ∅, some "crackle", none⟩,
      ⟨"crackle", "noise", ∅, some "twice", some "s"⟩,
      ⟨"twice", "repeat", ∅, some "again", some "odd"⟩,
      ⟨"again", "repeat", ∅, some "fade", some "odd"⟩, ⟨"odd", "whistle", ∅, some "play", none⟩,
      ⟨"play", "play_note", ∅, some "gone", none⟩, ⟨"fade", "noise", ∅, some "gone", none⟩],
    by decide⟩

theorem unknown_spliced_medley :
    let rules := (Registry.standard Sink).rules
    let thread := compileThread rules medley "s"
    let start : Node := ⟨"s", "start", ∅, some "hiss", none⟩
    let odd : Node := ⟨"odd", "whistle", ∅, some "play", none⟩
    (start ∈ medley.nodes ∧ start.kind ≠ .unknown ∧ ∀ id, .cyclicChain id ∉ thread.2) ∧
    compileThread rules medley.trimmed "s" = thread ∧
    medley.spliced.nodes.map Node.links =
      [["twice"], ["twice"], ["twice", "s"], ["again", "play"], ["play"], ["play"], ["gone"],
        ["gone"]] ∧
    compileThread rules medley.spliced "s" = (thread.1, []) ∧
    odd ∈ medley.nodes ∧ odd.kind = .unknown ∧
    {route | medley.nodeAt? (some "s") route = some odd}.ncard = 2 := by
  intro rules thread start odd
  have hwarnings : thread.2 = [.unknownType "fade" "noise", .unknownType "odd" "whistle",
      .unknownType "odd" "whistle", .unknownType "crackle" "noise",
      .unknownType "hiss" "noise"] := by decide +kernel
  have hcycle : ∀ id, .cyclicChain id ∉ thread.2 := by
    rw [hwarnings]
    simp
  have hstart : start ∈ medley.nodes := List.mem_cons_self
  have hknown : start.kind ≠ .unknown := by decide
  have hodd : odd ∈ medley.nodes := by decide
  obtain ⟨htrimmed, hspliced⟩ := unknown_spliced Sink medley start hstart
  obtain ⟨hsame, -, hcount⟩ := hspliced hknown hcycle
  refine ⟨⟨hstart, hknown, hcycle⟩, htrimmed, by decide, hsame, hodd, by decide, ?_⟩
  rw [← (hcount odd hodd (by decide)).2, hwarnings]
  decide

end Lowering

end TuneBlocks
