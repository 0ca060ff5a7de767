import TuneBlocks.Proofs.Regions

/-!
# Labels of drafts

Whatever rules a draft is written by, they can do three things to it: ask for a new block, emit an
instruction to a label, which need not be one that was given out, and warn. A new block is stored
under its label even if the label is taken, so it would silently empty a block of the same label.
Stems are made of node ids and block types and may look like labels themselves, but the number at
the end of a label can always be told from its stem, and numbers only go up. So the labels given out
are distinct (`nodup_given`), and a block that was asked for collects every instruction that is
emitted to it (`Holds.editAll`).
-/

namespace TuneBlocks

namespace Draft

/-- A step in the writing of a draft. -/
inductive Edit where
  | newBlock (stem : String)
  | emit (key : Label) (i : Instruction)
  | warn (w : Warning)
deriving DecidableEq

/-- The stem that a step asks a label for. -/
def Edit.stem? : Edit → Option String
  | newBlock stem => some stem
  | emit .. | warn .. => none

/-- The instruction that a step emits to a label. -/
def Edit.emitted? (key : Label) : Edit → Option Instruction
  | emit key' i => if key' = key then some i else none
  | newBlock .. | warn .. => none

/-- The label that a step gives out, and the draft after it. -/
def edit (d : Draft) : Edit → Option Label × Draft
  | .newBlock stem => (Lowering.newBlock stem d).map some id
  | .emit key i => (none, (Lowering.emit key i d).2)
  | .warn w => (none, (Lowering.warn w d).2)

/-- The draft after some steps. -/
def editAll (d : Draft) (edits : List Edit) : Draft := edits.foldl (fun d e => (d.edit e).2) d

/-- The labels that some steps give out, in order. -/
def given (d : Draft) : List Edit → List Label
  | [] => []
  | e :: edits => (d.edit e).1.toList ++ (d.edit e).2.given edits

/-- The instructions that some steps emit to a label, in order. -/
def emitted (key : Label) (edits : List Edit) : List Instruction :=
  edits.filterMap (Edit.emitted? key)

variable {d : Draft} {key : Label} {is : List Instruction}

theorem editAll_append (d : Draft) (edits edits' : List Edit) :
    d.editAll (edits ++ edits') = (d.editAll edits).editAll edits' := List.foldl_append

theorem given_append (d : Draft) (edits edits' : List Edit) :
    d.given (edits ++ edits') = d.given edits ++ (d.editAll edits).given edits' := by
  induction edits generalizing d with
  | nil => rfl
  | cons e edits ih => simp only [List.cons_append, given, ih, List.append_assoc]; rfl

/-! ## Numbers of labels -/

theorem edit_fst (d : Draft) (e : Edit) :
    (d.edit e).1 = e.stem?.map fun stem => label stem (d.allocated + 1) := by
  cases e <;> rfl

theorem allocated_edit (d : Draft) (e : Edit) :
    (d.edit e).2.allocated = d.allocated + e.stem?.toList.length := by
  cases e <;> rfl

/-- The labels are made of the stems in turn, and numbered through whatever the stems are. -/
theorem given_eq (d : Draft) (edits : List Edit) :
    d.given edits =
      (edits.filterMap Edit.stem?).mapIdx fun i stem => label stem (d.allocated + 1 + i) := by
  induction edits generalizing d with
  | nil => rfl
  | cons e edits ih =>
    rw [given, ih, edit_fst, allocated_edit]
    cases e with
    | newBlock stem =>
      simp only [Edit.stem?, List.filterMap_cons, List.mapIdx_cons, Option.map_some,
        Option.toList_some, List.length_singleton, List.singleton_append, Nat.add_zero]
      simp only [Nat.add_assoc, Nat.add_comm]
    | emit key i => simp [Edit.stem?, List.filterMap_cons]
    | warn w => simp [Edit.stem?, List.filterMap_cons]

/-- **Labels that are given out are distinct.** -/
theorem nodup_given (d : Draft) (edits : List Edit) : (d.given edits).Nodup := by
  rw [given_eq, List.nodup_iff_pairwise_ne, List.pairwise_iff_getElem]
  intro i j hi hj hij
  simp only [List.getElem_mapIdx]
  intro h
  have := label_number h
  omega

/-! ## Blocks of labels -/

/-- The label has been given out, and its block has these instructions. -/
structure Holds (d : Draft) (key : Label) (is : List Instruction) : Prop where
  given : Numbered 0 d.allocated key
  block : d.blocks.get? key = some ⟨key, is⟩

theorem holds_newBlock (d : Draft) (stem : String) :
    (Lowering.newBlock stem d).2.Holds (Lowering.newBlock stem d).1 [] where
  given := ⟨stem, d.allocated + 1, by omega, Nat.le_refl _, rfl⟩
  block := by
    rw [Lowering.newBlock, Keyed.get?_insert, if_pos rfl]

namespace Holds

/-- A label that has been given out is not given out again. -/
theorem ne_label (h : d.Holds key is) (stem : String) : key ≠ label stem (d.allocated + 1) := by
  obtain ⟨stem', n, -, hn, rfl⟩ := h.given
  intro heq
  have := label_number heq
  omega

/-- A new block leaves the others as they are. -/
theorem newBlock (h : d.Holds key is) (stem : String) :
    (Lowering.newBlock stem d).2.Holds key is where
  given := h.given.mono (Nat.le_refl _) (Nat.le_succ _)
  block := by
    rw [Lowering.newBlock, Keyed.get?_insert, if_neg (h.ne_label stem)]
    exact h.block

theorem emit (h : d.Holds key is) (key' : Label) (i : Instruction) :
    (Lowering.emit key' i d).2.Holds key (is ++ (Edit.emitted? key (.emit key' i)).toList) where
  given := h.given
  block := by
    rw [Lowering.emit, Keyed.get?_upsert, Edit.emitted?]
    by_cases hkey : key = key'
    · subst hkey
      simp [h.block]
    · simp [hkey, Ne.symm hkey, h.block]

/-- A step changes the block of a label that has been given out by what it emits to it. -/
theorem edit (h : d.Holds key is) (e : Edit) :
    (d.edit e).2.Holds key (is ++ (e.emitted? key).toList) := by
  cases e with
  | newBlock stem =>
    rw [Edit.emitted?, Option.toList_none, List.append_nil]
    exact h.newBlock stem
  | emit key' i => exact h.emit key' i
  | warn w =>
    rw [Edit.emitted?, Option.toList_none, List.append_nil]
    exact ⟨h.given, h.block⟩

/-- **A block collects what is emitted to its label from then on.** -/
theorem editAll (h : d.Holds key is) (edits : List Edit) :
    (d.editAll edits).Holds key (is ++ emitted key edits) := by
  induction edits generalizing d is with
  | nil => simpa [Draft.editAll, emitted] using h
  | cons e edits ih =>
    have hrest := ih (h.edit e)
    rw [List.append_assoc] at hrest
    cases hemitted : e.emitted? key <;> simpa [Draft.editAll, emitted, hemitted] using hrest

end Holds

theorem mem_given_iff {edits : List Edit} : key ∈ d.given edits ↔
    ∃ front stem back, edits = front ++ .newBlock stem :: back ∧
      (Lowering.newBlock stem (d.editAll front)).1 = key := by
  induction edits generalizing d with
  | nil => simp [given]
  | cons e edits ih =>
    rw [given, List.mem_append, ih]
    constructor
    · rintro (hkey | ⟨front, stem, back, rfl, hkey⟩)
      · cases e with
        | newBlock stem => exact ⟨[], stem, edits, rfl, (List.mem_singleton.1 hkey).symm⟩
        | emit key' i => cases hkey
        | warn w => cases hkey
      · exact ⟨e :: front, stem, back, rfl, hkey⟩
    · rintro ⟨front, stem, back, hedits, hkey⟩
      cases front with
      | nil =>
        cases hedits
        exact .inl (List.mem_singleton.2 hkey.symm)
      | cons e' front =>
        cases hedits
        exact .inr ⟨front, stem, back, rfl, hkey⟩

/-- What the block of a label holds after all steps is what was emitted to it since the label was
given out. -/
theorem holds_editAll (d : Draft) (front : List Edit) (stem : String) (back : List Edit) :
    (d.editAll (front ++ .newBlock stem :: back)).Holds
      (Lowering.newBlock stem (d.editAll front)).1
      (emitted (Lowering.newBlock stem (d.editAll front)).1 back) := by
  rw [editAll_append]
  exact (holds_newBlock (d.editAll front) stem).editAll back

theorem exists_holds {edits : List Edit} (h : key ∈ d.given edits) :
    ∃ is, (d.editAll edits).Holds key is := by
  obtain ⟨front, stem, back, rfl, rfl⟩ := mem_given_iff.1 h
  exact ⟨_, holds_editAll d front stem back⟩

/-! ## Threads -/

/-- Steps that emit to labels of blocks only add the blocks they ask for. -/
theorem LeadsTo.exists_edits {d d' : Draft} (h : d.LeadsTo d') (hd : d.Fresh) :
    ∃ edits, d.editAll edits = d' ∧ d'.blocks.keys = d.blocks.keys ++ d.given edits := by
  induction h with
  | refl => exact ⟨[], rfl, by simp [given]⟩
  | @newBlock d' stem h ih =>
    obtain ⟨edits, rfl, hkeys⟩ := ih
    refine ⟨edits ++ [.newBlock stem], editAll_append _ _ _, ?_⟩
    rw [keys_newBlock, if_neg (h.fresh hd stem _ (Nat.lt_succ_self _)), hkeys, given_append,
      List.append_assoc]
    rfl
  | @emit d' key i h hkey ih =>
    obtain ⟨edits, rfl, hkeys⟩ := ih
    refine ⟨edits ++ [.emit key i], editAll_append _ _ _, ?_⟩
    rw [keys_emit i hkey, hkeys, given_append]
    simp [given, edit]
  | @warn d' w h ih =>
    obtain ⟨edits, rfl, hkeys⟩ := ih
    refine ⟨edits ++ [.warn w], editAll_append _ _ _, ?_⟩
    rw [given_append]
    simpa [given, edit, Lowering.warn] using hkeys

end Draft

namespace Lowering

variable (σ : Type) [HasSink σ]

/-- A thread is written by steps, and has the blocks that they ask for. -/
theorem lowerThread_edits (g : Graph) (start : NodeId) : ∃ edits,
    Draft.empty.editAll edits = (lowerThread (Registry.standard σ).rules g start .empty).2 ∧
      (compileThread (Registry.standard σ).rules g start).1.blocks.keys =
        Draft.empty.given edits := by
  have hcareful : Careful [] (lowerThread (Registry.standard σ).rules g start) :=
    .newBlock_bind fun exit d _ => lowerChain_careful σ g [] (some start) exit d (List.nil_subset _)
  exact (hcareful .empty (List.nil_subset _)).exists_edits Draft.fresh_empty

/-- **Labels never collide.** Whatever stems labels are asked for with, and whatever is done in
between, each label is its stem with the next number and no label is given out twice. So a new block
takes the place of no block that was asked for before: all of these are as they were, and in the end
each has every instruction that was emitted to its label since it was given out. A thread is written
in this way, so it has a block for each label that was given out for it, in this order. -/
theorem labels_never_collide :
    (∀ (d : Draft) (edits : List Draft.Edit),
      d.given edits = (edits.filterMap Draft.Edit.stem?).mapIdx
        (fun i stem => stem ++ "_" ++ toString (d.allocated + 1 + i)) ∧
      (d.given edits).Nodup) ∧
    (∀ (d : Draft) (front : List Draft.Edit) (stem : String) (back : List Draft.Edit),
      let key := (newBlock stem (d.editAll front)).1
      (∀ key' ∈ d.given front, key' ≠ key ∧ ∃ b, (d.editAll front).blocks.get? key' = some b ∧
        (newBlock stem (d.editAll front)).2.blocks.get? key' = some b) ∧
      (d.editAll (front ++ .newBlock stem :: back)).blocks.get? key =
        some ⟨key, Draft.emitted key back⟩) ∧
    ∀ (g : Graph) (start : NodeId), ∃ edits,
      Draft.empty.editAll edits = (lowerThread (Registry.standard σ).rules g start .empty).2 ∧
      (compileThread (Registry.standard σ).rules g start).1.blocks.keys =
        Draft.empty.given edits := by
  refine ⟨fun d edits => ⟨d.given_eq edits, d.nodup_given edits⟩, ?_, lowerThread_edits σ⟩
  intro d front stem back key
  refine ⟨fun key' hkey' => ?_, (Draft.holds_editAll d front stem back).block⟩
  obtain ⟨is, hheld⟩ := Draft.exists_holds hkey'
  exact ⟨hheld.ne_label stem, ⟨key', is⟩, hheld.block, (hheld.newBlock stem).block⟩

/-- Stems that look like labels of each other. -/
example : Draft.empty.given [.newBlock "a_2", .newBlock "a", .warn (.cyclicChain "a"),
    .newBlock "a_2", .newBlock "a_2_", .newBlock ""] =
      ["a_2_1", "a_2", "a_2_3", "a_2__4", "_5"] := by
  decide +kernel

end Lowering

end TuneBlocks
