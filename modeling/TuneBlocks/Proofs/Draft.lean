import TuneBlocks.Lowering.Draft

/-!
# Growth of drafts

What the steps of lowering do to a draft, in terms of the list of its blocks: a new block is
appended to the list (`Grows.newBlock`), and an instruction goes to the end of the one block that
has the label (`Grows.emit`). Both rest on the numbers of labels: a label determines its number
(`Draft.label_number`), so a label that has not been given out is the key of no block (`Fresh`).
-/

namespace TuneBlocks

namespace Draft

/-- The digits of a label's number, read from the end of the label. -/
theorem label_digits (stem : String) (n : Nat) :
    (label stem n).toList.reverse.takeWhile (· ≠ '_') = (Nat.toDigits 10 n).reverse := by
  have hdigits : ∀ c ∈ (Nat.toDigits 10 n).reverse, decide (c ≠ '_') = true := by
    intro c hc
    have hd := Nat.isDigit_of_mem_toDigits (by decide) (by decide) (List.mem_reverse.1 hc)
    simp only [decide_eq_true_eq]
    rintro rfl
    simp at hd
  have hlist : (label stem n).toList.reverse =
      (Nat.toDigits 10 n).reverse ++ '_' :: stem.toList.reverse := by
    simp [label, String.toList_append]
  rw [hlist, List.takeWhile_append_of_pos hdigits]
  simp

/-- A label determines its number, whatever the stems are: a stem may end in digits, but the last
underscore of a label stands right before its number. -/
theorem label_number {s t : String} {m n : Nat} (h : label s m = label t n) : m = n := by
  have hdigits := label_digits s m
  rw [h, label_digits, List.reverse_inj] at hdigits
  rw [← Nat.ofDigitChars_ten_toDigits (n := m), ← hdigits, Nat.ofDigitChars_ten_toDigits]

/-- No block has a label that has not been given out yet. -/
def Fresh (d : Draft) : Prop := ∀ stem n, d.allocated < n → label stem n ∉ d.blocks.keys

/-- A label with a number above `lo` and not above `hi`. -/
def Numbered (lo hi : Nat) (l : Label) : Prop := ∃ stem n, lo < n ∧ n ≤ hi ∧ l = label stem n

theorem Numbered.mono {lo lo' hi hi' : Nat} {l : Label} (h : Numbered lo hi l) (hlo : lo' ≤ lo)
    (hhi : hi ≤ hi') : Numbered lo' hi' l := by
  obtain ⟨stem, n, hl, hr, rfl⟩ := h
  exact ⟨stem, n, by omega, by omega, rfl⟩

/-- The entries under which blocks are stored by their own labels. -/
def entriesOf (code : List BasicBlock) : List (Label × BasicBlock) := code.map fun b => (b.label, b)

theorem entriesOf_append (code code' : List BasicBlock) :
    entriesOf (code ++ code') = entriesOf code ++ entriesOf code' := List.map_append

/-- The draft `d'` is `d` with `count` more labels given out, with the blocks `code` behind those of
`d`, which are as they were, and with the warnings `ws` behind those of `d`. -/
structure Grows (d : Draft) (count : Nat) (code : List BasicBlock) (ws : List Warning)
    (d' : Draft) : Prop where
  allocated : d'.allocated = d.allocated + count
  entries : d'.blocks.entries = d.blocks.entries ++ entriesOf code
  warnings : d'.warnings = d.warnings ++ ws
  numbered : ∀ b ∈ code, Numbered d.allocated (d.allocated + count) b.label

theorem fresh_empty : Fresh empty := fun _ _ _ h => nomatch h

namespace Grows

variable {d d' d'' : Draft} {count count' : Nat} {code code' : List BasicBlock}
  {ws ws' : List Warning}

theorem refl (d : Draft) : Grows d 0 [] [] d :=
  ⟨rfl, by simp [entriesOf], by simp, fun b hb => nomatch hb⟩

theorem trans (h : Grows d count code ws d') (h' : Grows d' count' code' ws' d'') :
    Grows d (count + count') (code ++ code') (ws ++ ws') d'' := by
  refine ⟨?_, ?_, ?_, ?_⟩
  · rw [h'.allocated, h.allocated, Nat.add_assoc]
  · rw [h'.entries, h.entries, entriesOf_append, List.append_assoc]
  · rw [h'.warnings, h.warnings, List.append_assoc]
  · intro b hb
    rcases List.mem_append.1 hb with hb | hb
    · exact (h.numbered b hb).mono (Nat.le_refl _) (by omega)
    · have hb' := h'.numbered b hb
      rw [h.allocated] at hb'
      exact hb'.mono (by omega) (by omega)

theorem keys (h : Grows d count code ws d') :
    d'.blocks.keys = d.blocks.keys ++ code.map BasicBlock.label := by
  simp [Keyed.keys, h.entries, entriesOf, Function.comp_def]

theorem fresh (h : Grows d count code ws d') (hd : d.Fresh) : d'.Fresh := by
  intro stem n hn
  rw [h.allocated] at hn
  rw [h.keys, List.mem_append, List.mem_map]
  rintro (hmem | ⟨b, hb, hlabel⟩)
  · exact hd stem n (by omega) hmem
  · obtain ⟨stem', n', _, hn', hb'⟩ := h.numbered b hb
    rw [hb'] at hlabel
    have := label_number hlabel
    omega

theorem newBlock (hd : d.Fresh) (stem : String) :
    Grows d 1 [⟨label stem (d.allocated + 1), []⟩] [] (Lowering.newBlock stem d).2 := by
  have hnew : label stem (d.allocated + 1) ∉ d.blocks.keys := hd stem _ (by omega)
  refine ⟨rfl, ?_, by simp [Lowering.newBlock], ?_⟩
  · exact Keyed.upsertEntries_of_not_mem _ hnew
  · intro b hb
    rw [List.mem_singleton.1 hb]
    exact ⟨stem, _, by omega, by omega, rfl⟩

/-- An instruction goes to the end of the block with the label, wherever that block stands. -/
theorem emit (front back : List BasicBlock) {label : Label} {is : List Instruction}
    (i : Instruction) (h : Grows d count (front ++ ⟨label, is⟩ :: back) ws d') :
    Grows d count (front ++ ⟨label, is ++ [i]⟩ :: back) ws (Lowering.emit label i d').2 := by
  -- the keys are distinct, so the blocks in front of this one have other labels
  have hnd := d'.blocks.nodup_keys
  have hentries := h.entries
  rw [entriesOf_append, ← List.append_assoc] at hentries
  rw [hentries, List.map_append, List.nodup_append] at hnd
  have hfront : label ∉ (d.blocks.entries ++ entriesOf front).map Prod.fst :=
    fun hmem => hnd.2.2 label hmem label (by simp [entriesOf]) rfl
  refine ⟨h.allocated, ?_, h.warnings, ?_⟩
  · rw [entriesOf_append, ← List.append_assoc]
    simp only [Lowering.emit, Keyed.upsert, hentries]
    rw [Keyed.upsertEntries_append _ hfront]
    simp [entriesOf, Keyed.upsertEntries]
  · intro b hb
    rcases List.mem_append.1 hb with hb | hb
    · exact h.numbered b (List.mem_append_left _ hb)
    · rcases List.mem_cons.1 hb with rfl | hb
      · exact h.numbered ⟨label, is⟩ (List.mem_append_right _ List.mem_cons_self)
      · exact h.numbered b (List.mem_append_right _ (List.mem_cons_of_mem _ hb))

theorem warn (w : Warning) : Grows d 0 [] [w] (Lowering.warn w d).2 :=
  ⟨rfl, by simp [Lowering.warn, entriesOf], rfl, fun b hb => nomatch hb⟩

end Grows

end Draft

end TuneBlocks
