import TuneBlocks.Proofs.Compiled

/-!
# Where threads start

A root is a node that no link leads to, and a link of the node to itself counts like any other. So
the roots are the nodes that no other node links to, except for those that link to themselves
(`roots_eq_filter`). Since only roots become threads, such a node is lost although nothing comes
before it (`start_lost_by_self_link`).
-/

namespace TuneBlocks

theorem Node.mem_links_iff {n : Node} {id : NodeId} :
    id ∈ n.links ↔ n.next = some id ∨ n.body = some id := by
  rw [links, List.mem_append, Option.mem_toList, Option.mem_toList]

namespace Graph

/-- Another node has the node as its next one or as the first of its body. -/
def LinkedByOther (g : Graph) (n : Node) : Prop := ∃ m ∈ g.nodes, m ≠ n ∧ n.id ∈ m.links

instance (g : Graph) (n : Node) : Decidable (g.LinkedByOther n) :=
  inferInstanceAs (Decidable (∃ m ∈ g.nodes, m ≠ n ∧ n.id ∈ m.links))

/-- The nodes that no other node links to, in the order of the document. -/
def heads (g : Graph) : List Node := g.nodes.filter fun n => ¬ g.LinkedByOther n

variable {g : Graph} {n : Node}

theorem mem_heads_iff : n ∈ g.heads ↔ n ∈ g.nodes ∧ ¬ g.LinkedByOther n := by
  rw [heads, List.mem_filter, decide_eq_true_iff]

theorem linked_iff (hn : n ∈ g.nodes) :
    n.id ∈ g.nodes.flatMap Node.links ↔ g.LinkedByOther n ∨ n.id ∈ n.links := by
  rw [List.mem_flatMap]
  constructor
  · rintro ⟨m, hm, hlink⟩
    by_cases hself : m = n
    · exact .inr (hself ▸ hlink)
    · exact .inl ⟨m, hm, hself, hlink⟩
  · rintro (⟨m, hm, -, hlink⟩ | hlink)
    · exact ⟨m, hm, hlink⟩
    · exact ⟨n, hn, hlink⟩

/-- The roots are the heads that do not link to themselves. -/
theorem roots_eq_filter (g : Graph) : g.roots = g.heads.filter fun n => n.id ∉ n.links := by
  rw [heads, List.filter_filter]
  apply List.filter_congr
  intro n hn
  rw [Bool.eq_iff_iff]
  simp only [Bool.not_eq_true', List.contains_eq_mem, decide_eq_false_iff_not, linked_iff hn,
    not_or, Bool.and_eq_true, decide_eq_true_eq, and_comm]

theorem mem_roots_iff : n ∈ g.roots ↔ n ∈ g.nodes ∧ ¬ g.LinkedByOther n ∧ n.id ∉ n.links := by
  rw [roots_eq_filter, List.mem_filter, mem_heads_iff, decide_eq_true_iff, and_assoc]

theorem roots_sublist (g : Graph) : g.roots.Sublist g.nodes := List.filter_sublist

theorem nodup_nodes (g : Graph) : g.nodes.Nodup :=
  List.Pairwise.of_map Node.id (fun _ _ hne heq => hne (congrArg Node.id heq)) g.nodup_ids

theorem mem_startNodes_iff {type : String} :
    n ∈ g.startNodes type ↔ n ∈ g.roots ∧ n.type = type := by
  rw [startNodes, List.mem_filter, beq_iff_eq]

theorem roots_eq_heads_iff :
    g.roots = g.heads ↔ ∀ n ∈ g.nodes, n.id ∈ n.links → g.LinkedByOther n := by
  rw [roots_eq_filter, List.filter_eq_self]
  constructor
  · intro h n hn hself
    apply Decidable.byContradiction
    intro hother
    exact of_decide_eq_true (h n (mem_heads_iff.2 ⟨hn, hother⟩)) hself
  · intro h n hn
    obtain ⟨hn, hother⟩ := mem_heads_iff.1 hn
    exact decide_eq_true fun hself => hother (h n hn hself)

/-- A document is compiled to threads for its start nodes, and for no other node. -/
theorem isSome_routine?_startNodes (rules : LoweringRules) (type : String) (hn : n ∈ g.nodes) :
    ((Lowering.compile rules g (g.startNodes type)).program.routine?
      (Lowering.routineName n.id)).isSome ↔ n ∈ g.roots ∧ n.type = type := by
  rw [← mem_startNodes_iff, Option.isSome_iff_exists]
  constructor
  · rintro ⟨r, hr⟩
    obtain ⟨s, hs, hname, -⟩ := (Lowering.routine?_compile_iff rules g _).1 hr
    have hsn : s ∈ g.nodes := g.roots_sublist.subset (mem_startNodes_iff.1 hs).1
    rwa [eq_of_id_eq hn hsn (Lowering.routineName_inj hname)]
  · intro hstart
    exact ⟨_, (Lowering.routine?_compile_iff rules g _).2 ⟨n, hstart, rfl, rfl⟩⟩

/-- **The roots are the nodes without links to them, their own links included.** They come in the
order of the document and each once, and those of a type are its start nodes. They are all nodes
that no other node links to exactly if each node that links to itself is also linked to by another.
Only they become threads. -/
theorem roots_exact (g : Graph) :
    g.roots.Sublist g.nodes ∧ g.roots.Nodup ∧
    (∀ n, n ∈ g.roots ↔ n ∈ g.nodes ∧
      (∀ m ∈ g.nodes, m ≠ n → m.next ≠ some n.id ∧ m.body ≠ some n.id) ∧
      n.next ≠ some n.id ∧ n.body ≠ some n.id) ∧
    (∀ type, (g.startNodes type).Sublist g.roots ∧
      ∀ n, n ∈ g.startNodes type ↔ n ∈ g.roots ∧ n.type = type) ∧
    (g.roots = g.heads ↔ ∀ n ∈ g.nodes, n.id ∈ n.links → g.LinkedByOther n) ∧
    ∀ rules type, ∀ n ∈ g.nodes,
      ((Lowering.compile rules g (g.startNodes type)).program.routine?
        (Lowering.routineName n.id)).isSome ↔ n ∈ g.roots ∧ n.type = type := by
  refine ⟨g.roots_sublist, g.roots_sublist.nodup g.nodup_nodes, fun n => ?_, fun type => ?_,
    roots_eq_heads_iff, fun rules type n hn => isSome_routine?_startNodes rules type hn⟩
  · rw [mem_roots_iff, Node.mem_links_iff, not_or]
    simp only [LinkedByOther, Node.mem_links_iff, not_exists, not_and, not_or]
  · exact ⟨List.filter_sublist, fun n => mem_startNodes_iff⟩

/-- A start node with a note behind it. Its body, which start nodes do not use, is itself. -/
def selfLinked : Graph :=
  ⟨[⟨"s", "start", ∅, some "p", some "s"⟩, ⟨"p", "play_note", ∅, none, none⟩], by decide⟩

/-- No other node links to the start node, and still it is no root and becomes no thread. -/
theorem start_lost_by_self_link :
    let s : Node := ⟨"s", "start", ∅, some "p", some "s"⟩
    s ∈ selfLinked.nodes ∧
      (∀ m ∈ selfLinked.nodes, m ≠ s → m.next ≠ some s.id ∧ m.body ≠ some s.id) ∧
      s ∉ selfLinked.roots ∧ selfLinked.startNodes "start" = [] := by
  decide

end Graph

end TuneBlocks
