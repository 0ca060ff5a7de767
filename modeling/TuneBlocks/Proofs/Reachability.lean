import Mathlib.Order.Lattice.Nat
import TuneBlocks.Program.Reachable

/-!
# Breadth-first search

The search for reachable blocks goes by layers, whatever the routine is. While the blocks of one
layer are visited, those of the next are found (`visit_layer`), and a layer holds the keys at one
distance from the entry (`Layer.next`). So the search comes to every key that a path of targets
leads to, once, and to the nearer ones first (`reachable_exact`).
-/

namespace TuneBlocks.Routine

/-! ## Paths -/

/-- An instruction of the block under one key names the other key as a target. -/
def Targets (r : Routine) (a b : Label) : Prop :=
  b ∈ r.blocks.keys ∧ ∃ block, r.block? a = some block ∧ ∃ i ∈ block.instructions, b ∈ i.targets

/-- A path of targets from the entry to a key, with its length. -/
inductive Path (r : Routine) : Nat → Label → Prop
  | entry : r.entry ∈ r.blocks.keys → Path r 0 r.entry
  | step : Path r n a → r.Targets a b → Path r (n + 1) b

/-- The length of the shortest path to a key. -/
noncomputable def distance (r : Routine) (key : Label) : Nat := sInf {n | r.Path n key}

/-- A path of this length leads to the key, and no shorter one. -/
def Shortest (r : Routine) (n : Nat) (key : Label) : Prop := r.Path n key ∧ ∀ k < n, ¬ r.Path k key

variable {r : Routine} {n : Nat} {key : Label}

theorem Path.exists_shortest (h : r.Path n key) : ∃ k, r.Shortest k key := by
  classical
  have hsome : ∃ k, r.Path k key := ⟨n, h⟩
  exact ⟨Nat.find hsome, Nat.find_spec hsome, fun k hlt => Nat.find_min hsome hlt⟩

theorem Shortest.distance_eq (h : r.Shortest n key) : r.distance key = n := by
  have hmem : r.distance key ∈ {k | r.Path k key} := Nat.sInf_mem ⟨n, h.1⟩
  apply Nat.le_antisymm
  · exact Nat.sInf_le h.1
  · exact Nat.not_lt.1 fun hlt => h.2 _ hlt hmem

/-- A shortest path goes on from a shortest path. -/
theorem Shortest.exists_previous (h : r.Shortest (n + 1) key) :
    ∃ a, r.Shortest n a ∧ r.Targets a key := by
  obtain ⟨hpath, hleast⟩ := h
  cases hpath with
  | @step _ a _ ha htarget =>
    refine ⟨a, ⟨ha, fun k hlt hk => ?_⟩, htarget⟩
    exact hleast (k + 1) (Nat.succ_lt_succ hlt) (.step hk htarget)

/-- There is a key at every distance up to the largest. -/
theorem Shortest.exists_of_le (h : r.Shortest n key) {d : Nat} (hle : d ≤ n) :
    ∃ a, r.Shortest d a := by
  induction n generalizing key with
  | zero =>
    obtain rfl := Nat.le_zero.1 hle
    exact ⟨key, h⟩
  | succ n ih =>
    rcases Nat.lt_or_eq_of_le hle with hlt | rfl
    · obtain ⟨a, ha, -⟩ := h.exists_previous
      exact ih ha (Nat.le_of_lt_succ hlt)
    · exact ⟨key, h⟩

/-! ## Labels found -/

variable {seen : List Label}

theorem mem_successors_iff {a b : Label} :
    b ∈ r.successors a ∧ b ∈ r.blocks.keys ↔ r.Targets a b := by
  unfold successors Targets
  cases r.block? a with
  | none => simp
  | some block => simp [and_comm]

theorem mem_unseen_iff {targets : List Label} :
    key ∈ r.unseen seen targets ↔ key ∈ targets ∧ key ∈ r.blocks.keys ∧ key ∉ seen := by
  induction targets generalizing seen with
  | nil => simp [unseen]
  | cons t rest ih =>
    unfold unseen
    split
    · rename_i h
      by_cases hkey : key = t
      · simp [hkey, h.1, h.2]
      · simp [ih, hkey]
    · rename_i h
      rw [ih, List.mem_cons]
      constructor
      · exact fun hmem => ⟨.inr hmem.1, hmem.2⟩
      · rintro ⟨rfl | hmem, hrest⟩
        · exact absurd hrest h
        · exact ⟨hmem, hrest⟩

theorem nodup_unseen (r : Routine) (seen targets : List Label) :
    (r.unseen seen targets).Nodup := by
  induction targets generalizing seen with
  | nil => exact .nil
  | cons t rest ih =>
    unfold unseen
    split
    · refine List.nodup_cons.2 ⟨fun hmem => ?_, ih _⟩
      exact (mem_unseen_iff.1 hmem).2.2 List.mem_cons_self
    · exact ih seen

theorem unseen_append (r : Routine) (seen front back : List Label) :
    r.unseen seen (front ++ back) =
      r.unseen seen front ++ r.unseen ((r.unseen seen front).reverse ++ seen) back := by
  induction front generalizing seen with
  | nil => rfl
  | cons t rest ih =>
    simp only [List.cons_append, unseen]
    split
    · simp only [ih, List.cons_append, List.reverse_cons, List.append_assoc, List.nil_append]
    · exact ih seen

/-! ## Layers -/

/-- What the blocks of a layer lead to, apart from what has been seen. -/
def found (r : Routine) (seen layer : List Label) : List Label :=
  r.unseen seen (layer.flatMap r.successors)

theorem visit_append (r : Routine) (seen layer back : List Label) :
    r.visit seen (layer ++ back) =
      layer ++ r.visit ((r.found seen layer).reverse ++ seen) (back ++ r.found seen layer) := by
  induction layer generalizing seen back with
  | nil => simp [found, unseen]
  | cons label rest ih =>
    rw [List.cons_append, visit, List.append_assoc, ih]
    simp only [found, List.flatMap_cons, unseen_append, List.reverse_append, List.append_assoc,
      List.cons_append]

/-- The search visits a layer, and then the one that it has found meanwhile. -/
theorem visit_layer (r : Routine) (seen layer : List Label) :
    r.visit seen layer =
      layer ++ r.visit ((r.found seen layer).reverse ++ seen) (r.found seen layer) := by
  have h := r.visit_append seen layer []
  rwa [List.append_nil, List.nil_append] at h

/-- The layer holds the keys at one distance, and those seen are at this distance or nearer. -/
structure Layer (r : Routine) (d : Nat) (seen layer : List Label) : Prop where
  mem_seen_iff : ∀ key, key ∈ seen ↔ ∃ n ≤ d, r.Path n key
  mem_layer_iff : ∀ key, key ∈ layer ↔ r.Shortest d key
  nodup : layer.Nodup

namespace Layer

variable {d : Nat} {layer : List Label}

theorem entry (h : r.entry ∈ r.blocks.keys) : r.Layer 0 [r.entry] [r.entry] := by
  have hzero : ∀ key, r.Path 0 key ↔ key = r.entry := by
    intro key
    constructor
    · intro hpath
      cases hpath
      rfl
    · rintro rfl
      exact .entry h
  refine ⟨fun key => ?_, fun key => ?_, List.nodup_singleton _⟩
  · simp [← hzero]
  · simp [Shortest, hzero]

theorem mem_found_iff (h : r.Layer d seen layer) (key : Label) :
    key ∈ r.found seen layer ↔ r.Shortest (d + 1) key := by
  rw [found, mem_unseen_iff, List.mem_flatMap, h.mem_seen_iff]
  constructor
  · rintro ⟨⟨a, ha, hsuccessor⟩, hkey, hnew⟩
    have hpath := ((h.mem_layer_iff a).1 ha).1
    refine ⟨.step hpath (mem_successors_iff.1 ⟨hsuccessor, hkey⟩), fun k hlt hk => ?_⟩
    exact hnew ⟨k, Nat.le_of_lt_succ hlt, hk⟩
  · intro hshortest
    obtain ⟨a, ha, htarget⟩ := hshortest.exists_previous
    obtain ⟨hsuccessor, hkey⟩ := mem_successors_iff.2 htarget
    refine ⟨⟨a, (h.mem_layer_iff a).2 ha, hsuccessor⟩, hkey, ?_⟩
    rintro ⟨k, hle, hk⟩
    exact hshortest.2 k (Nat.lt_succ_of_le hle) hk

/-- **What is found from a layer is the next layer.** -/
theorem next (h : r.Layer d seen layer) :
    r.Layer (d + 1) ((r.found seen layer).reverse ++ seen) (r.found seen layer) := by
  refine ⟨fun key => ?_, h.mem_found_iff, r.nodup_unseen seen _⟩
  rw [List.mem_append, List.mem_reverse, h.mem_found_iff, h.mem_seen_iff]
  constructor
  · rintro (hshortest | ⟨n, hle, hn⟩)
    · exact ⟨d + 1, Nat.le_refl _, hshortest.1⟩
    · exact ⟨n, Nat.le_succ_of_le hle, hn⟩
  · rintro ⟨n, hle, hn⟩
    by_cases hnear : ∃ k ≤ d, r.Path k key
    · exact .inr hnear
    · -- not nearer, so the path has the length of the layer
      have hfar : ∀ k < d + 1, ¬ r.Path k key :=
        fun k hlt hk => hnear ⟨k, Nat.le_of_lt_succ hlt, hk⟩
      obtain rfl : n = d + 1 := Nat.le_antisymm hle (Nat.not_lt.1 fun hlt => hfar n hlt hn)
      exact .inl ⟨hn, hfar⟩

end Layer

/-- A list of the keys at a distance or farther away, each once and the nearer ones first. -/
structure ListsFrom (r : Routine) (d : Nat) (order : List Label) : Prop where
  nodup : order.Nodup
  mem_iff : ∀ key, key ∈ order ↔ ∃ n ≥ d, r.Shortest n key
  sorted : order.Pairwise fun a b => r.distance a ≤ r.distance b

theorem Layer.listsFrom_append {d : Nat} {layer order : List Label} (h : r.Layer d seen layer)
    (horder : r.ListsFrom (d + 1) order) : r.ListsFrom d (layer ++ order) := by
  have hlayer : ∀ {a}, a ∈ layer → r.distance a = d :=
    fun ha => ((h.mem_layer_iff _).1 ha).distance_eq
  have hafter : ∀ {a}, a ∈ order → d < r.distance a := by
    intro a ha
    obtain ⟨n, hn, hshortest⟩ := (horder.mem_iff a).1 ha
    rw [hshortest.distance_eq]
    exact hn
  refine ⟨?_, fun key => ?_, ?_⟩
  · refine List.nodup_append.2 ⟨h.nodup, horder.nodup, fun a ha b hb => ?_⟩
    rintro rfl
    exact Nat.lt_irrefl d (hlayer ha ▸ hafter hb)
  · rw [List.mem_append, h.mem_layer_iff, horder.mem_iff]
    constructor
    · rintro (hshortest | ⟨n, hn, hshortest⟩)
      · exact ⟨d, Nat.le_refl d, hshortest⟩
      · exact ⟨n, Nat.le_of_succ_le hn, hshortest⟩
    · rintro ⟨n, hn, hshortest⟩
      rcases Nat.eq_or_lt_of_le hn with rfl | hlt
      · exact .inl hshortest
      · exact .inr ⟨n, hlt, hshortest⟩
  · refine List.pairwise_append.2 ⟨?_, horder.sorted, fun a ha b hb => ?_⟩
    · refine List.pairwise_of_forall_mem_list fun a ha b hb => ?_
      rw [hlayer ha, hlayer hb]
    · rw [hlayer ha]
      exact Nat.le_of_lt (hafter hb)

/-- From a layer on, the search lists all that is at its distance or farther away. -/
theorem Layer.listsFrom_visit {d : Nat} {layer : List Label} (h : r.Layer d seen layer) :
    r.ListsFrom d (r.visit seen layer) := by
  -- the measure is the one by which the search ends
  induction hm : unmarked r.blocks.keys seen + layer.length using Nat.strongRecOn
    generalizing d seen layer with
  | ind m ih =>
    subst hm
    rcases layer with _ | ⟨label, rest⟩
    · rw [visit]
      refine ⟨.nil, fun key => ?_, .nil⟩
      simp only [List.not_mem_nil, false_iff]
      rintro ⟨n, hn, hshortest⟩
      obtain ⟨a, ha⟩ := hshortest.exists_of_le hn
      exact List.not_mem_nil ((h.mem_layer_iff a).2 ha)
    · rw [visit_layer]
      refine h.listsFrom_append (ih _ ?_ h.next rfl)
      have hfound := r.unmarked_unseen seen ((label :: rest).flatMap r.successors)
      simp only [found, List.length_cons]
      omega

/-! ## Reachable blocks -/

theorem listsFrom_reachable (r : Routine) : r.ListsFrom 0 r.reachable := by
  unfold reachable
  split
  · rename_i hentry
    exact (Layer.entry hentry).listsFrom_visit
  · rename_i hentry
    refine ⟨.nil, fun key => ?_, .nil⟩
    simp only [List.not_mem_nil, false_iff]
    rintro ⟨n, -, hshortest⟩
    obtain ⟨a, ha, -⟩ := hshortest.exists_of_le (Nat.zero_le n)
    exact hentry (by cases ha; assumption)

theorem head?_reachable (h : r.entry ∈ r.blocks.keys) : r.reachable.head? = some r.entry := by
  rw [reachable, if_pos h, visit]
  rfl

theorem mem_reachable_iff : key ∈ r.reachable ↔ ∃ n, r.Path n key := by
  rw [r.listsFrom_reachable.mem_iff]
  constructor
  · rintro ⟨n, -, hshortest⟩
    exact ⟨n, hshortest.1⟩
  · rintro ⟨n, hpath⟩
    obtain ⟨k, hk⟩ := hpath.exists_shortest
    exact ⟨k, Nat.zero_le k, hk⟩

theorem mem_unreachable_iff :
    key ∈ r.unreachable ↔ key ∈ r.blocks.keys ∧ key ∉ r.reachable := by
  rw [unreachable, List.mem_filter, decide_eq_true_iff]

/-- **The search is exact.** The reachable blocks are those that a path of targets leads to, each
once, with the entry first and the nearer ones before those farther away. All other blocks are
unreachable, and are listed in the order of the routine. -/
theorem reachable_exact (r : Routine) :
    r.reachable.Nodup ∧
    (∀ key, key ∈ r.reachable ↔ ∃ n, r.Path n key) ∧
    r.reachable.Pairwise (fun a b => r.distance a ≤ r.distance b) ∧
    (r.entry ∈ r.blocks.keys → r.reachable.head? = some r.entry) ∧
    r.unreachable.Sublist r.blocks.keys ∧
    ∀ key, key ∈ r.unreachable ↔ key ∈ r.blocks.keys ∧ ¬ ∃ n, r.Path n key := by
  have hlists := r.listsFrom_reachable
  refine ⟨hlists.nodup, fun key => mem_reachable_iff, hlists.sorted, head?_reachable,
    List.filter_sublist, fun key => ?_⟩
  rw [mem_unreachable_iff, mem_reachable_iff]

end TuneBlocks.Routine
