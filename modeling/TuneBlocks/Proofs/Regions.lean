import TuneBlocks.Proofs.Compiled

/-!
# Regions of drafts

While a thread is lowered its draft goes through many states, and a rule may lower a chain in any of
them. All of them are made from an empty draft by three steps (`Draft.LeadsTo`): a block is added,
an instruction goes to a block that exists, or a warning is raised. In every such state a chain
becomes a region of its own (`Grows.addsRegion`): the blocks that are there stay as they are, and
control that enters the new ones leaves them at the exit of the chain only.
-/

namespace TuneBlocks

namespace Draft

/-! ## Steps of lowering -/

/-- Steps of lowering lead from one draft to the other, in whatever order they are taken. -/
inductive LeadsTo (d : Draft) : Draft → Prop
  | refl : LeadsTo d d
  | newBlock (stem : String) : LeadsTo d d' → LeadsTo d (Lowering.newBlock stem d').2
  | emit (i : Instruction) : LeadsTo d d' → key ∈ d'.blocks.keys →
      LeadsTo d (Lowering.emit key i d').2
  | warn (w : Warning) : LeadsTo d d' → LeadsTo d (Lowering.warn w d').2

theorem keys_newBlock (d : Draft) (stem : String) : (Lowering.newBlock stem d).2.blocks.keys =
    if label stem (d.allocated + 1) ∈ d.blocks.keys then d.blocks.keys
    else d.blocks.keys ++ [label stem (d.allocated + 1)] :=
  Keyed.keys_insert _ _ _

theorem mem_keys_newBlock (d : Draft) (stem : String) :
    label stem (d.allocated + 1) ∈ (Lowering.newBlock stem d).2.blocks.keys := by
  rw [keys_newBlock]
  split
  · assumption
  · exact List.mem_append_right _ (List.mem_singleton.2 rfl)

theorem keys_emit {d : Draft} {key : Label} (i : Instruction) (h : key ∈ d.blocks.keys) :
    (Lowering.emit key i d).2.blocks.keys = d.blocks.keys :=
  (Keyed.keys_upsert _ _ _).trans (if_pos h)

namespace LeadsTo

variable {d d' d'' : Draft}

theorem trans (h : d.LeadsTo d') (h' : d'.LeadsTo d'') : d.LeadsTo d'' := by
  induction h' with
  | refl => exact h
  | newBlock stem _ ih => exact .newBlock stem ih
  | emit i _ hkey ih => exact .emit i ih hkey
  | warn w _ ih => exact .warn w ih

theorem keys_subset (h : d.LeadsTo d') : d.blocks.keys ⊆ d'.blocks.keys := by
  induction h with
  | refl => exact List.Subset.refl _
  | @newBlock d' stem _ ih =>
    rw [keys_newBlock]
    split
    · exact ih
    · exact List.subset_append_of_subset_left _ ih
  | emit i _ hkey ih =>
    rw [keys_emit i hkey]
    exact ih
  | warn w _ ih => exact ih

/-- The numbers of labels are never used before they are given out. -/
theorem fresh (h : d.LeadsTo d') (hd : d.Fresh) : d'.Fresh := by
  induction h with
  | refl => exact hd
  | newBlock stem _ ih => exact (Grows.newBlock ih stem).fresh ih
  | emit i _ hkey ih =>
    intro stem n hn
    rw [keys_emit i hkey]
    exact ih stem n hn
  | warn w _ ih => exact (Grows.warn w).fresh ih

end LeadsTo

end Draft

namespace Lowering

/-- On drafts that have blocks under the known labels, the computation goes by steps of lowering. -/
def Careful (known : List Label) (x : Lowering α) : Prop :=
  ∀ d : Draft, known ⊆ d.blocks.keys → d.LeadsTo (x d).2

namespace Careful

variable {α β : Type} {known : List Label} {x : Lowering α} {f : α → Lowering β}

theorem pure (a : α) : Careful known (Pure.pure a : Lowering α) := fun _ _ => .refl

theorem bind (hx : Careful known x) (hf : ∀ a, Careful known (f a)) :
    Careful known (x >>= f) := by
  intro d hknown
  have hfirst := hx d hknown
  exact hfirst.trans (hf _ _ (List.Subset.trans hknown hfirst.keys_subset))

/-- A new block is known from then on. -/
theorem newBlock_bind {stem : String} {f : Label → Lowering β}
    (hf : ∀ key, Careful (key :: known) (f key)) : Careful known (newBlock stem >>= f) := by
  intro d hknown
  have hfirst : d.LeadsTo (newBlock stem d).2 := .newBlock stem .refl
  refine hfirst.trans (hf _ _ (List.cons_subset.2 ⟨d.mem_keys_newBlock stem, ?_⟩))
  exact List.Subset.trans hknown hfirst.keys_subset

theorem emit_bind {key : Label} (hkey : key ∈ known) (i : Instruction) {f : Unit → Lowering β}
    (hf : Careful known (f ())) : Careful known (emit key i >>= f) :=
  bind (fun _ hknown => .emit i .refl (hknown hkey)) fun _ => hf

theorem warn (w : Warning) : Careful known (Lowering.warn w) := fun _ _ => .warn w .refl

end Careful

theorem passThrough_careful (scope : LoweringScope) (n : Node) (next : Label) :
    Careful [] (Core.passThrough scope n next) :=
  .newBlock_bind fun key => .emit_bind (by simp) _ (.pure key)

theorem actionBlock_careful (a : Action) (n : Node) (next : Label) :
    Careful [] (actionBlock a n next) :=
  .newBlock_bind fun key => .emit_bind (by simp) _ <| .emit_bind (by simp) _ (.pure key)

section
variable {scope : LoweringScope} (hscope : ∀ known link exit,
  Careful known (scope.lowerChain link exit)) (n : Node) (next : Label)
include hscope

theorem countedLoop_careful (bound : Operand) :
    Careful [] (countedLoop bound scope n next) := by
  refine .newBlock_bind fun init => .newBlock_bind fun cond => .newBlock_bind fun increment => ?_
  refine .emit_bind (by simp) _ <| .emit_bind (by simp) _ <| .bind (hscope _ _ _) fun body => ?_
  exact .emit_bind (by simp) _ <| .emit_bind (by simp) _ <| .emit_bind (by simp) _ (.pure init)

theorem foreverLoop_careful : Careful [] (foreverLoop scope n next) := by
  refine .newBlock_bind fun header => .bind (hscope _ _ _) fun body => ?_
  exact .emit_bind (by simp) _ (.pure header)

theorem lowerKind_careful (kind : Kind) : Careful [] (lowerKind scope n next kind) := by
  cases kind with
  | place => exact passThrough_careful scope n next
  | act a => exact actionBlock_careful a n next
  | counted bound => exact countedLoop_careful hscope n next bound
  | forever => exact foreverLoop_careful hscope n next
  | unknown => exact .bind (.warn _) fun _ => .pure next

end

theorem lowerNodes_careful {lower : Node → Label → Lowering Label}
    (hlower : ∀ n next, Careful [] (lower n next)) (exit : Label) (nodes : List Node) :
    Careful [] (lowerNodes lower exit nodes) := by
  induction nodes with
  | nil => exact .pure exit
  | cons n rest ih => exact .bind ih fun next => hlower n next

theorem warnCut_careful (cut : Option NodeId) : Careful [] (warnCut cut) := by
  cases cut with
  | none => exact .pure ()
  | some id => exact .warn _

variable (σ : Type) [HasSink σ]

/-- **Lowering a chain with the standard blocks goes by the steps of lowering.** -/
theorem lowerChain_careful (g : Graph) (active : List NodeId) (start : Option NodeId)
    (exit : Label) : Careful [] (lowerChain (Registry.standard σ).rules g active start exit) := by
  induction hm : unmarked g.ids active using Nat.strongRecOn generalizing active start exit with
  | ind m ih =>
    subst hm
    rcases hchain : g.chain active start with ⟨nodes, cut⟩
    rw [lowerChain_eq _ exit hchain]
    refine .bind (warnCut_careful cut) fun _ => ?_
    cases nodes with
    | nil => exact .pure exit
    | cons n rest =>
      refine lowerNodes_careful (fun m next => ?_) exit (n :: rest)
      rw [lowerNode_standard]
      apply lowerKind_careful
      intro known link exit d _
      have hfewer := Graph.unmarked_chain hchain List.mem_cons_self
      exact ih _ hfewer _ link exit rfl d (List.nil_subset _)

end Lowering

/-! ## Regions -/

namespace Draft

/-- The second draft has a block under the key, and the first has none. -/
def Adds (d d' : Draft) (key : Label) : Prop := key ∈ d'.blocks.keys ∧ key ∉ d.blocks.keys

/-- Between the drafts a region was added that control enters at one label and leaves at the
other. -/
structure AddsRegion (d d' : Draft) (entry exit : Label) : Prop where
  /-- The blocks that were there come first, as they were. -/
  kept : d.blocks.entries <+: d'.blocks.entries
  entry : entry = exit ∨ d.Adds d' entry
  closed : ∀ key b, d.Adds d' key → d'.blocks.get? key = some b →
    ∀ i ∈ b.instructions, ∀ t ∈ i.targets, t = exit ∨ d.Adds d' t

namespace Grows

variable {d d' : Draft} {count : Nat} {code : List BasicBlock} {ws : List Warning}

theorem get?_of_get? (h : d.Grows count code ws d') {key : Label} {b : BasicBlock}
    (hb : d.blocks.get? key = some b) : d'.blocks.get? key = some b := by
  apply Keyed.get?_eq_some_iff.2
  rw [h.entries]
  exact List.mem_append_left _ (Keyed.get?_eq_some_iff.1 hb)

theorem get?_of_mem (h : d.Grows count code ws d') {b : BasicBlock} (hb : b ∈ code) :
    d'.blocks.get? b.label = some b := by
  apply Keyed.get?_eq_some_iff.2
  rw [h.entries]
  exact List.mem_append_right _ (List.mem_map.2 ⟨b, hb, rfl⟩)

theorem keys_subset (h : d.Grows count code ws d') : d.blocks.keys ⊆ d'.blocks.keys := by
  rw [h.keys]
  exact List.subset_append_left _ _

/-- The keys are distinct, so the added ones are those of the code. -/
theorem adds_iff (h : d.Grows count code ws d') {key : Label} :
    d.Adds d' key ↔ key ∈ code.map BasicBlock.label := by
  have hnodup := d'.blocks.keys_nodup
  rw [h.keys, List.nodup_append] at hnodup
  rw [Adds, h.keys, List.mem_append]
  constructor
  · rintro ⟨hkey | hkey, hnew⟩
    · exact absurd hkey hnew
    · exact hkey
  · exact fun hkey => ⟨.inr hkey, fun hold => hnodup.2.2 key hold key hkey rfl⟩

theorem mem_of_adds (h : d.Grows count code ws d') {key : Label} {b : BasicBlock}
    (hkey : d.Adds d' key) (hb : d'.blocks.get? key = some b) : b ∈ code ∧ b.label = key := by
  obtain ⟨b', hb', rfl⟩ := List.mem_map.1 (h.adds_iff.1 hkey)
  rw [h.get?_of_mem hb'] at hb
  cases hb
  exact ⟨hb', rfl⟩

/-- **The code of an outline is added as a region.** -/
theorem addsRegion {o : Outline} {exit : Label}
    (h : d.Grows count (o.code d.allocated exit) ws d') :
    d.AddsRegion d' (o.entry d.allocated exit) exit where
  kept := ⟨_, h.entries.symm⟩
  entry := (o.region_entry d.allocated exit).imp_right h.adds_iff.2
  closed key b hkey hb i hi t ht := by
    have hwf := (o.code_wf d.allocated exit (h.mem_of_adds hkey hb).1).2
    exact (hwf.targets i hi t ht).imp_right h.adds_iff.2

end Grows

end Draft

end TuneBlocks
