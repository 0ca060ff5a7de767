import TuneBlocks.Program.Check

/-!
# Well-formed programs

What a program that passes the check satisfies, said without the list of violations:
`Program.violations_eq_nil_iff`.
-/

namespace TuneBlocks

/-- A block ends in its only jump, and its jumps lead to known labels. A block without instructions
is well-formed. -/
structure BasicBlock.WF (known : Label → Prop) (b : BasicBlock) : Prop where
  jumps : ∀ {index i}, b.instructions[index]? = some i →
    (i.isTerminator = true ↔ index + 1 = b.instructions.length)
  targets : ∀ i ∈ b.instructions, ∀ t ∈ i.targets, known t

structure Routine.WF (r : Routine) : Prop where
  entry : r.entry ∈ r.blocks.keys
  halting : ∃ b ∈ r.blocks.values, b.instructions = []
  labels : ∀ {key b}, (key, b) ∈ r.blocks.entries → key = b.label
  blocks : ∀ {key b}, (key, b) ∈ r.blocks.entries → b.WF (· ∈ r.blocks.keys)

/-- One entry of a list of violations is missing exactly if its rule is kept. -/
theorem violation_eq_nil_iff {c : Prop} [Decidable c] {v : Violation} :
    (if c then [] else [v]) = [] ↔ c := by
  by_cases h : c <;> simp [h]

namespace Routine

theorem instructionViolations_eq_nil_iff {r : Routine} {label : Label} {size index : Nat}
    {i : Instruction} : r.instructionViolations label size index i = [] ↔
      (i.isTerminator = true → index + 1 = size) ∧ ∀ t ∈ i.targets, t ∈ r.blocks.keys := by
  unfold instructionViolations
  rw [List.append_eq_nil_iff, List.map_eq_nil_iff, List.filter_eq_nil_iff]
  refine and_congr ?_ (forall₂_congr fun t _ => ?_)
  · cases i.isTerminator <;> simp
  · simp [Keyed.contains_iff]

theorem instructions_eq_nil_iff {r : Routine} {b : BasicBlock} :
    (b.instructions.mapIdx fun index i =>
        r.instructionViolations b.label b.instructions.length index i).flatten = [] ↔
      ∀ index i, b.instructions[index]? = some i →
        (i.isTerminator = true → index + 1 = b.instructions.length) ∧
          ∀ t ∈ i.targets, t ∈ r.blocks.keys := by
  rw [List.flatten_eq_nil_iff]
  constructor
  · intro h index i hi
    obtain ⟨hlt, rfl⟩ := List.getElem?_eq_some_iff.1 hi
    exact instructionViolations_eq_nil_iff.1 (h _ (List.mem_mapIdx.2 ⟨index, hlt, rfl⟩))
  · intro h l hl
    obtain ⟨index, hlt, rfl⟩ := List.mem_mapIdx.1 hl
    exact instructionViolations_eq_nil_iff.2 (h index _ (List.getElem?_eq_getElem hlt))

/-- The last instruction of a block that has instructions is a jump. -/
theorem missingTerminator_iff {b : BasicBlock} :
    (!b.instructions.isEmpty && b.terminator.isNone) = false ↔
      ∀ index i, b.instructions[index]? = some i → index + 1 = b.instructions.length →
        i.isTerminator = true := by
  rcases List.eq_nil_or_concat b.instructions with hb | ⟨front, last, hb⟩
  · simp [hb]
  · have hterminator : b.terminator.isNone = !last.isTerminator := by
      cases h : last.isTerminator <;> simp [BasicBlock.terminator, hb, h]
    rw [hterminator, hb]
    constructor
    · intro h index i hi hindex
      have : index = front.length := by simpa using hindex
      subst this
      simp at hi h
      exact hi ▸ h
    · intro h
      have := h front.length last (by simp) (by simp)
      simp [this]

theorem blockViolations_eq_nil_iff {r : Routine} {b : BasicBlock} :
    r.blockViolations b = [] ↔ b.WF (· ∈ r.blocks.keys) := by
  unfold blockViolations
  rw [List.append_eq_nil_iff, instructions_eq_nil_iff]
  have hlast : (if !b.instructions.isEmpty && b.terminator.isNone then
      [Violation.missingTerminator r.name b.label] else []) = [] ↔
        (!b.instructions.isEmpty && b.terminator.isNone) = false := by
    cases !b.instructions.isEmpty && b.terminator.isNone <;> simp
  rw [hlast, missingTerminator_iff]
  constructor
  · rintro ⟨h, hend⟩
    refine ⟨fun {index i} hi => ⟨(h index i hi).1, hend index i hi⟩, fun i hi => ?_⟩
    obtain ⟨index, hindex⟩ := List.getElem?_of_mem hi
    exact (h index i hindex).2
  · intro h
    exact ⟨fun index i hi => ⟨(h.jumps hi).1, h.targets i (List.mem_of_getElem? hi)⟩,
      fun index i hi => (h.jumps hi).2⟩

theorem isEmpty_haltingBlocks {r : Routine} :
    r.haltingBlocks.isEmpty = false ↔ ∃ b ∈ r.blocks.values, b.instructions = [] := by
  rw [List.isEmpty_eq_false_iff_exists_mem]
  simp [haltingBlocks, BasicBlock.isHalting]

theorem violations_eq_nil_iff {r : Routine} : r.violations = [] ↔ r.WF := by
  unfold violations
  rw [List.append_eq_nil_iff, List.append_eq_nil_iff, List.flatMap_eq_nil_iff,
    violation_eq_nil_iff, Keyed.contains_iff]
  have hhalting : (if r.haltingBlocks.isEmpty then [Violation.noHaltingBlock r.name] else []) = []
      ↔ ∃ b ∈ r.blocks.values, b.instructions = [] := by
    rw [← isEmpty_haltingBlocks]
    cases r.haltingBlocks.isEmpty <;> simp
  rw [hhalting]
  constructor
  · rintro ⟨⟨hentry, hhalt⟩, hblocks⟩
    have hparts : ∀ {key b}, (key, b) ∈ r.blocks.entries → key = b.label ∧
        b.WF (· ∈ r.blocks.keys) := by
      intro key b hb
      obtain ⟨hkey, hblock⟩ := List.append_eq_nil_iff.1 (hblocks (key, b) hb)
      exact ⟨violation_eq_nil_iff.1 hkey, blockViolations_eq_nil_iff.1 hblock⟩
    exact ⟨hentry, hhalt, fun hb => (hparts hb).1, fun hb => (hparts hb).2⟩
  · intro h
    refine ⟨⟨h.entry, h.halting⟩, ?_⟩
    rintro ⟨key, b⟩ hb
    exact List.append_eq_nil_iff.2
      ⟨violation_eq_nil_iff.2 (h.labels hb), blockViolations_eq_nil_iff.2 (h.blocks hb)⟩

end Routine

theorem Program.violations_eq_nil_iff {p : Program} : p.violations = [] ↔
    ∀ key r, (key, r) ∈ p.routines.entries → key = r.name ∧ r.WF := by
  unfold violations
  rw [List.flatMap_eq_nil_iff]
  constructor
  · intro h key r hr
    obtain ⟨hkey, hroutine⟩ := List.append_eq_nil_iff.1 (h (key, r) hr)
    exact ⟨violation_eq_nil_iff.1 hkey, Routine.violations_eq_nil_iff.1 hroutine⟩
  · rintro h ⟨key, r⟩ hr
    obtain ⟨hkey, hwf⟩ := h key r hr
    exact List.append_eq_nil_iff.2
      ⟨violation_eq_nil_iff.2 hkey, Routine.violations_eq_nil_iff.2 hwf⟩

end TuneBlocks
