import TuneBlocks.Proofs.Code
import TuneBlocks.Proofs.WellFormed

/-!
# Compiled programs are well-formed

The code of an outline is a region of its own: every block ends in its only jump, and jumps lead to
blocks of the region or to the label where the chain is left (`Outline.code_wf`). So whatever the
graph is, a program compiled with the standard blocks passes the check, and a thread of it can only
halt in the block that was made for this (`compile_passes_check`).
-/

namespace TuneBlocks

/-! ## Regions -/

namespace Action

theorem targets_of_not_terminator {a : Action} (h : a.isTerminator = false) : a.targets = [] := by
  cases a with
  | jump | branch => cases h
  | _ => rfl

end Action

namespace BasicBlock

variable {known known' : Label → Prop} {b : BasicBlock} {label : Label}

theorem WF.mono (h : b.WF known) (hknown : ∀ t, known t → known' t) : b.WF known' :=
  ⟨h.jumps, fun i hi t ht => hknown t (h.targets i hi t ht)⟩

theorem WF.jump {i : Instruction} (hi : i.isTerminator = true) (ht : ∀ t ∈ i.targets, known t) :
    WF known ⟨label, [i]⟩ := by
  refine ⟨fun {index j} hj => ?_, fun j hj => ?_⟩
  · cases index with
    | zero => simp_all
    | succ index => simp at hj
  · rw [List.mem_singleton.1 hj]
    exact ht

theorem WF.act {i j : Instruction} (hi : i.isTerminator = false) (hj : j.isTerminator = true)
    (ht : ∀ t ∈ j.targets, known t) : WF known ⟨label, [i, j]⟩ := by
  refine ⟨fun {index k} hk => ?_, fun k hk => ?_⟩
  · match index with
    | 0 | 1 => simp_all
    | index + 2 => simp at hk
  · simp only [List.mem_cons, List.not_mem_nil, or_false] at hk
    rcases hk with rfl | rfl
    · intro t htarget
      rw [Instruction.targets, Action.targets_of_not_terminator hi] at htarget
      exact nomatch htarget
    · exact ht

end BasicBlock

namespace Node

/-- What a node does besides jumping is never a jump. -/
theorem isTerminator_of_kind {n : Node} {a : Action} (h : n.kind = .act a) :
    a.isTerminator = false := by
  unfold kind at h
  split at h <;> first | cases h; rfl | cases h

theorem entry_mem (n : Node) (a : Nat) (next body : Label) :
    n.entry a next = next ∨ n.entry a next ∈ (n.blocks a next body).map BasicBlock.label := by
  cases hkind : n.kind with
  | unknown => exact .inl (by simp only [entry, hkind])
  | _ => exact .inr (by simp [entry, blocks, hkind])

theorem bodyExit_mem (n : Node) (a : Nat) (next body : Label) : n.bodyExit a next = next ∨
    n.bodyExit a next ∈ (n.blocks a next body).map BasicBlock.label := by
  cases hkind : n.kind with
  | counted | forever => exact .inr (by simp [bodyExit, blocks, hkind])
  | _ => exact .inl (by simp only [bodyExit, hkind])

theorem blocks_wf {n : Node} {a : Nat} {next body : Label} {b : BasicBlock}
    (hb : b ∈ n.blocks a next body) : b.instructions ≠ [] ∧
      b.WF fun t => t = next ∨ t = body ∨
        t ∈ (n.blocks a next body).map BasicBlock.label := by
  cases hkind : n.kind with
  | place =>
    simp only [blocks, hkind, List.mem_singleton] at hb ⊢
    subst hb
    exact ⟨by simp, .jump rfl fun t ht => .inl (List.mem_singleton.1 ht)⟩
  | act x =>
    simp only [blocks, hkind, List.mem_singleton] at hb ⊢
    subst hb
    exact ⟨by simp, .act (isTerminator_of_kind hkind) rfl
      fun t ht => .inl (List.mem_singleton.1 ht)⟩
  | counted bound =>
    simp only [blocks, hkind, List.mem_cons, List.not_mem_nil, or_false] at hb ⊢
    rcases hb with rfl | rfl | rfl
    · refine ⟨by simp, .act rfl rfl fun t ht => .inr (.inr ?_)⟩
      rw [List.mem_singleton.1 ht]
      simp
    · refine ⟨by simp, .jump rfl fun t ht => ?_⟩
      simp only [Instruction.targets, Action.tagged, Action.targets, List.mem_cons,
        List.not_mem_nil, or_false] at ht
      rcases ht with rfl | rfl
      · exact .inr (.inl rfl)
      · exact .inl rfl
    · refine ⟨by simp, .act rfl rfl fun t ht => .inr (.inr ?_)⟩
      rw [List.mem_singleton.1 ht]
      simp
  | forever =>
    simp only [blocks, hkind, List.mem_singleton] at hb ⊢
    subst hb
    exact ⟨by simp, .jump rfl fun t ht => .inr (.inl (List.mem_singleton.1 ht))⟩
  | unknown => simp [blocks, hkind] at hb

end Node

namespace Outline

/-- The labels of the code of an outline, and the one where it is left. -/
def Region (o : Outline) (a : Nat) (exit t : Label) : Prop :=
  t = exit ∨ t ∈ (o.code a exit).map BasicBlock.label

section
variable {n : Node} {body rest : Outline} {a : Nat} {exit t : Label}

theorem Region.of_rest (h : rest.Region a exit t) : (node n body rest).Region a exit t := by
  rcases h with h | h
  · exact .inl h
  · exact .inr (by simp only [code, List.map_append, List.mem_append]; exact .inl h)

theorem Region.of_node (h : t ∈ (n.blocks (a + rest.size) (rest.entry a exit)
      (body.entry (a + rest.size + n.kind.width)
        (n.bodyExit (a + rest.size) (rest.entry a exit)))).map BasicBlock.label) :
    (node n body rest).Region a exit t :=
  .inr (by simp only [code, List.map_append, List.mem_append]; exact .inr (.inl h))

theorem region_entry (o : Outline) (a : Nat) (exit : Label) : o.Region a exit (o.entry a exit) := by
  induction o generalizing a exit with
  | ending => exact .inl rfl
  | node n body rest _ ih =>
    rcases n.entry_mem (a + rest.size) (rest.entry a exit) _ with h | h
    · rw [entry, h]
      exact .of_rest (ih a exit)
    · exact .of_node h

theorem region_bodyExit :
    (node n body rest).Region a exit (n.bodyExit (a + rest.size) (rest.entry a exit)) := by
  rcases n.bodyExit_mem (a + rest.size) (rest.entry a exit) _ with h | h
  · rw [h]
    exact .of_rest (rest.region_entry a exit)
  · exact .of_node h

theorem Region.of_body (h : body.Region (a + rest.size + n.kind.width)
      (n.bodyExit (a + rest.size) (rest.entry a exit)) t) :
    (node n body rest).Region a exit t := by
  rcases h with rfl | h
  · exact region_bodyExit
  · exact .inr (by simp only [code, List.map_append, List.mem_append]; exact .inr (.inr h))

end

/-- Control stays in the code of an outline until it leaves at `exit`. -/
theorem code_wf (o : Outline) (a : Nat) (exit : Label) {b : BasicBlock} (hb : b ∈ o.code a exit) :
    b.instructions ≠ [] ∧ b.WF (o.Region a exit) := by
  induction o generalizing a exit with
  | ending => exact nomatch hb
  | node n body rest ihbody ihrest =>
    simp only [code, List.mem_append] at hb
    rcases hb with hb | hb | hb
    · obtain ⟨hne, hwf⟩ := ihrest a exit hb
      exact ⟨hne, hwf.mono fun t ht => .of_rest ht⟩
    · obtain ⟨hne, hwf⟩ := Node.blocks_wf hb
      refine ⟨hne, hwf.mono fun t ht => ?_⟩
      rcases ht with rfl | rfl | h
      · exact .of_rest (rest.region_entry a exit)
      · exact .of_body (body.region_entry _ _)
      · exact .of_node h
    · obtain ⟨hne, hwf⟩ := ihbody _ _ hb
      exact ⟨hne, hwf.mono fun t ht => .of_body ht⟩

end Outline

/-! ## Threads and programs -/

namespace Lowering

variable (σ : Type) [HasSink σ]

theorem compileThread_keys (g : Graph) (start : NodeId) :
    (compileThread (Registry.standard σ).rules g start).1.blocks.keys =
      threadEnd :: ((threadOutline g start).code 1 threadEnd).map BasicBlock.label := by
  rw [Keyed.keys, compileThread_entries]
  simp [Draft.entriesOf, Function.comp_def]

/-- A block of a thread is the one where it ends, or one of its code. -/
theorem compileThread_block {g : Graph} {start : NodeId} {key : Label} {b : BasicBlock}
    (h : (key, b) ∈ (compileThread (Registry.standard σ).rules g start).1.blocks.entries) :
    key = b.label ∧ (b = ⟨threadEnd, []⟩ ∨ b ∈ (threadOutline g start).code 1 threadEnd) := by
  rw [compileThread_entries, Draft.entriesOf] at h
  obtain ⟨b', hb', heq⟩ := List.mem_map.1 h
  cases heq
  exact ⟨rfl, List.mem_cons.1 hb'⟩

theorem compileThread_block?_of_mem {g : Graph} {start : NodeId} {b : BasicBlock}
    (hb : b ∈ ⟨threadEnd, []⟩ :: (threadOutline g start).code 1 threadEnd) :
    (compileThread (Registry.standard σ).rules g start).1.block? b.label = some b := by
  apply Keyed.get?_eq_some_iff.2
  rw [compileThread_entries, Draft.entriesOf]
  exact List.mem_map.2 ⟨b, hb, rfl⟩

theorem compileThread_wf (g : Graph) (start : NodeId) :
    (compileThread (Registry.standard σ).rules g start).1.WF := by
  refine ⟨?_, ?_, fun hb => (compileThread_block σ hb).1, fun {key b} hb => ?_⟩
  · rw [compileThread_entry, compileThread_keys, List.mem_cons]
    exact (threadOutline g start).region_entry 1 threadEnd
  · refine ⟨⟨threadEnd, []⟩, ?_, rfl⟩
    rw [Keyed.values, compileThread_entries]
    exact List.mem_map.2 ⟨(threadEnd, ⟨threadEnd, []⟩), List.mem_cons_self, rfl⟩
  · rw [compileThread_keys]
    rcases (compileThread_block σ hb).2 with rfl | hcode
    · exact ⟨fun hi => by simp at hi, fun i hi => nomatch hi⟩
    · exact ((threadOutline g start).code_wf 1 threadEnd hcode).2.mono
        fun t ht => List.mem_cons.2 ht

/-- A thread halts in no other block than that made for it. -/
theorem compileThread_empty_iff {g : Graph} {start : NodeId} {key : Label} {b : BasicBlock}
    (h : (compileThread (Registry.standard σ).rules g start).1.block? key = some b) :
    b.instructions = [] ↔ key = threadEnd := by
  have hmem := Keyed.get?_eq_some_iff.1 h
  constructor
  · intro hempty
    obtain ⟨rfl, hb | hb⟩ := compileThread_block σ hmem
    · rw [hb]
    · exact absurd hempty ((threadOutline g start).code_wf 1 threadEnd hb).1
  · rintro rfl
    have hend : (compileThread (Registry.standard σ).rules g start).1.block? threadEnd =
        some ⟨threadEnd, []⟩ := compileThread_block?_of_mem σ List.mem_cons_self
    rw [h] at hend
    cases hend
    rfl

theorem routineName_inj {a b : NodeId} (h : routineName a = routineName b) : a = b :=
  (String.append_right_inj "thread_").1 h

theorem routine?_foldl (rules : LoweringRules) (g : Graph) {name : String} {r : Routine}
    (starts : List Node) (c : Compilation) :
    (starts.foldl (fun c start =>
        ⟨c.program.addRoutine (compileThread rules g start.id).1,
          c.warnings ++ (compileThread rules g start.id).2⟩) c).program.routine? name = some r ↔
      (∃ s ∈ starts, name = routineName s.id ∧ r = (compileThread rules g s.id).1) ∨
        (∀ s ∈ starts, name ≠ routineName s.id) ∧ c.program.routine? name = some r := by
  induction starts generalizing c with
  | nil => simp
  | cons s rest ih =>
    rw [List.foldl_cons, ih, Program.routine?_addRoutine]
    constructor
    · rintro (⟨t, ht, hname, rfl⟩ | ⟨hrest, hr⟩)
      · exact .inl ⟨t, List.mem_cons_of_mem _ ht, hname, rfl⟩
      · split at hr
        · rename_i hname
          cases hr
          exact .inl ⟨s, List.mem_cons_self, hname, rfl⟩
        · rename_i hname
          exact .inr ⟨List.forall_mem_cons.2 ⟨hname, hrest⟩, hr⟩
    · rintro (⟨t, ht, rfl, rfl⟩ | ⟨hne, hr⟩)
      · by_cases hlater : ∃ u ∈ rest, routineName t.id = routineName u.id
        · obtain ⟨u, hu, hname⟩ := hlater
          exact .inl ⟨u, hu, hname, by rw [routineName_inj hname]⟩
        · -- No later thread has the name, so the node is the one in front.
          refine .inr ⟨fun u hu hname => hlater ⟨u, hu, hname⟩, ?_⟩
          rcases List.mem_cons.1 ht with rfl | ht
          · exact if_pos rfl
          · exact absurd ⟨t, ht, rfl⟩ hlater
      · obtain ⟨hs, hrest⟩ := List.forall_mem_cons.1 hne
        exact .inr ⟨hrest, (if_neg hs).trans hr⟩

/-- The routines of a compiled program are those of its threads, each under its name. -/
theorem routine?_compile_iff (rules : LoweringRules) (g : Graph) (starts : List Node)
    {name : String} {r : Routine} : (compile rules g starts).program.routine? name = some r ↔
      ∃ s ∈ starts, name = routineName s.id ∧ r = (compileThread rules g s.id).1 := by
  refine (routine?_foldl rules g starts ⟨.empty, []⟩).trans ?_
  simp

/-- The check finds nothing in a compiled program. -/
theorem violations_compile (g : Graph) (starts : List Node) :
    (compile (Registry.standard σ).rules g starts).program.violations = [] := by
  refine Program.violations_eq_nil_iff.2 fun name r hr => ?_
  obtain ⟨s, -, rfl, rfl⟩ := (routine?_compile_iff _ g starts).1 (Keyed.get?_eq_some_iff.2 hr)
  exact ⟨rfl, compileThread_wf σ g s.id⟩

/-- **Compiled programs pass the check**, whatever the graph and the start nodes are, and the block
that was made for a thread to halt in is the only one without instructions. -/
theorem compile_passes_check (g : Graph) (starts : List Node) :
    (compile (Registry.standard σ).rules g starts).program.violations = [] ∧
      ∀ name r, (compile (Registry.standard σ).rules g starts).program.routine? name = some r →
        ∀ key b, r.block? key = some b → (b.instructions = [] ↔ key = "thread_end_1") := by
  refine ⟨violations_compile σ g starts, fun name r hr key b hb => ?_⟩
  obtain ⟨s, -, rfl, rfl⟩ := (routine?_compile_iff _ g starts).1 hr
  rw [← threadEnd_eq]
  exact compileThread_empty_iff σ hb

end Lowering

end TuneBlocks
