import TuneBlocks.Proofs.WellFormed

/-!
# What the check reports

Each rule of the check is broken at places of the program, which are paths through its tables: the
position of a routine, of a block in it, of an instruction in the block, of a target of the
instruction (`Program.Breaks`). The check lists what is broken at all of them, each place once and
in their order (`Program.violations_exact`). Lists of this kind are put together as the check is
(`Enumerates`): one behind the other, and for the entries of a table one after the other.
-/

namespace TuneBlocks

/-- A path through the tables of a program, by positions. Behind the position of a routine, a block
or an instruction stands the number of a rule, in the order in which the check goes by them. -/
abbrev Place := List Nat

/-- The order of places: by the first position in which they differ. -/
def Place.Before : Place → Place → Prop := List.Lex (· < ·)

theorem Place.before_cons_iff {i j : Nat} {a b : Place} :
    Place.Before (i :: a) (j :: b) ↔ i < j ∨ i = j ∧ a.Before b :=
  List.cons_lex_cons_iff

/-! ## Broken rules -/

/-- What is broken inside a block of a routine, and where. -/
inductive Routine.BreaksIn (r : Routine) (b : BasicBlock) : Place → Violation → Prop
  | afterTerminator : b.instructions[index]? = some i → i.isTerminator = true →
      index + 1 < b.instructions.length →
      BreaksIn r b [1, index, 0] (.afterTerminator r.name b.label (index + 1))
  | unknownTarget : b.instructions[index]? = some i → i.targets[k]? = some t → t ∉ r.blocks.keys →
      BreaksIn r b [1, index, 1, k] (.unknownTarget r.name b.label index t)
  | missingTerminator : b.instructions.getLast? = some i → i.isTerminator = false →
      BreaksIn r b [2] (.missingTerminator r.name b.label)

/-- What is broken in a routine, and where. -/
inductive Routine.Breaks (r : Routine) : Place → Violation → Prop
  | missingEntry : r.entry ∉ r.blocks.keys → Breaks r [1] (.missingEntry r.name r.entry)
  | noHaltingBlock : (∀ b ∈ r.blocks.values, b.instructions ≠ []) →
      Breaks r [2] (.noHaltingBlock r.name)
  | blockKey : r.blocks.entries[k]? = some (key, b) → key ≠ b.label →
      Breaks r [3, k, 0] (.blockKey r.name key b.label)
  | inside : r.blocks.entries[k]? = some (key, b) → r.BreaksIn b place v →
      Breaks r (3 :: k :: place) v

/-- What is broken in a program, and where. -/
inductive Program.Breaks (p : Program) : Place → Violation → Prop
  | routineKey : p.routines.entries[k]? = some (key, r) → key ≠ r.name →
      Breaks p [k, 0] (.routineKey key r.name)
  | inside : p.routines.entries[k]? = some (key, r) → r.Breaks place v → Breaks p (k :: place) v

/-! ## Lists in the order of places -/

/-- The list has one entry for each place that is related to one, in the order of the places. -/
def Enumerates {α : Type} (R : Place → α → Prop) (l : List α) : Prop :=
  ∃ located : List (Place × α), located.map Prod.snd = l ∧
    located.Pairwise (fun e e' => e.1.Before e'.1) ∧ ∀ place a, (place, a) ∈ located ↔ R place a

/-- The relation, one position further down. -/
def Under {α : Type} (k : Nat) (R : Place → α → Prop) (place : Place) (a : α) : Prop :=
  ∃ rest, place = k :: rest ∧ R rest a

namespace Enumerates

variable {α β : Type} {R S : Place → α → Prop} {l l' : List α}

theorem congr (h : Enumerates R l) (hRS : ∀ place a, R place a ↔ S place a) : Enumerates S l := by
  obtain ⟨located, hl, hsorted, hmem⟩ := h
  exact ⟨located, hl, hsorted, fun place a => (hmem place a).trans (hRS place a)⟩

/-- One entry at a place, if its rule is broken. -/
theorem ifBroken (c : Prop) [Decidable c] (place₀ : Place) (a₀ : α) :
    Enumerates (fun place a => c ∧ place = place₀ ∧ a = a₀) (if c then [a₀] else []) := by
  by_cases h : c
  · exact ⟨[(place₀, a₀)], by simp [h], List.pairwise_singleton .., by simp [h]⟩
  · exact ⟨[], by simp [h], .nil, by simp [h]⟩

/-- One entry at a place, unless its rule is kept. -/
theorem unlessKept (c : Prop) [Decidable c] (place₀ : Place) (a₀ : α) :
    Enumerates (fun place a => ¬ c ∧ place = place₀ ∧ a = a₀) (if c then [] else [a₀]) := by
  have h := ifBroken (¬ c) place₀ a₀
  simpa only [ite_not] using h

theorem under (h : Enumerates R l) (k : Nat) : Enumerates (Under k R) l := by
  obtain ⟨located, rfl, hsorted, hmem⟩ := h
  refine ⟨located.map fun e => (k :: e.1, e.2), by simp, ?_, fun place a => ?_⟩
  · refine List.pairwise_map.2 (hsorted.imp fun hbefore => ?_)
    exact Place.before_cons_iff.2 (.inr ⟨rfl, hbefore⟩)
  · constructor
    · intro h
      obtain ⟨⟨rest, b⟩, he, heq⟩ := List.mem_map.1 h
      cases heq
      exact ⟨rest, rfl, (hmem rest b).1 he⟩
    · rintro ⟨rest, rfl, ha⟩
      exact List.mem_map.2 ⟨(rest, a), (hmem rest a).2 ha, rfl⟩

theorem append (h : Enumerates R l) (h' : Enumerates S l')
    (hbefore : ∀ place a place' a', R place a → S place' a' → place.Before place') :
    Enumerates (fun place a => R place a ∨ S place a) (l ++ l') := by
  obtain ⟨located, rfl, hsorted, hmem⟩ := h
  obtain ⟨located', rfl, hsorted', hmem'⟩ := h'
  refine ⟨located ++ located', by simp, ?_, fun place a => ?_⟩
  · refine List.pairwise_append.2 ⟨hsorted, hsorted', ?_⟩
    rintro ⟨place, a⟩ he ⟨place', a'⟩ he'
    exact hbefore place a place' a' ((hmem place a).1 he) ((hmem' place' a').1 he')
  · rw [List.mem_append, hmem, hmem']

/-- A list for each item of a table, from a position on. -/
theorem table_from {items : List β} {f : Nat → β → List α} {R : Nat → β → Place → α → Prop}
    (h : ∀ i x, items[i]? = some x → Enumerates (R i x) (f i x)) (k : Nat) :
    Enumerates (fun place a => ∃ i x, items[i]? = some x ∧ Under (k + i) (R i x) place a)
      (items.mapIdx f).flatten := by
  induction items generalizing f R k with
  | nil => exact ⟨[], rfl, .nil, by simp⟩
  | cons x rest ih =>
    have hrest := ih (R := fun i => R (i + 1)) (fun i y hy => h (i + 1) y hy) (k + 1)
    rw [List.mapIdx_cons, List.flatten_cons]
    refine (((h 0 x rfl).under k).append hrest ?_).congr fun place a => ?_
    · rintro place a place' a' ⟨_, rfl, -⟩ ⟨i, y, -, _, rfl, -⟩
      exact Place.before_cons_iff.2 (.inl (by omega))
    · constructor
      · rintro (hx | ⟨i, y, hy, hunder⟩)
        · exact ⟨0, x, rfl, hx⟩
        · rw [Nat.add_right_comm] at hunder
          exact ⟨i + 1, y, hy, hunder⟩
      · rintro ⟨i, y, hy, hunder⟩
        cases i with
        | zero =>
          cases hy
          exact .inl hunder
        | succ i =>
          rw [← Nat.add_assoc, Nat.add_right_comm] at hunder
          exact .inr ⟨i, y, hy, hunder⟩

theorem table {items : List β} {f : Nat → β → List α} {R : Nat → β → Place → α → Prop}
    (h : ∀ i x, items[i]? = some x → Enumerates (R i x) (f i x)) :
    Enumerates (fun place a => ∃ i x, items[i]? = some x ∧ Under i (R i x) place a)
      (items.mapIdx f).flatten := by
  simpa only [Nat.zero_add] using table_from h 0

theorem flatMap {items : List β} {f : β → List α} {R : β → Place → α → Prop}
    (h : ∀ x, Enumerates (R x) (f x)) :
    Enumerates (fun place a => ∃ i x, items[i]? = some x ∧ Under i (R x) place a)
      (items.flatMap f) := by
  have hmap : items.mapIdx (fun _ => f) = items.map f := by
    apply List.ext_getElem?
    simp
  have htable := @table α β items (fun _ => f) (fun _ => R) fun _ x _ => h x
  rwa [hmap] at htable

theorem filter_map (items : List β) (p : β → Bool) (f : β → α) :
    Enumerates (fun place a => ∃ i x, items[i]? = some x ∧ p x = true ∧ place = [i] ∧ a = f x)
      ((items.filter p).map f) := by
  have hflat : (items.filter p).map f = items.flatMap fun x => if p x then [f x] else [] := by
    induction items with
    | nil => rfl
    | cons x rest ih => cases hx : p x <;> simp [hx, ih]
  rw [hflat]
  refine (flatMap fun x => ifBroken (p x = true) [] (f x)).congr fun place a => ?_
  constructor
  · rintro ⟨i, x, hi, _, rfl, hx, rfl, rfl⟩
    exact ⟨i, x, hi, hx, rfl, rfl⟩
  · rintro ⟨i, x, hi, hx, rfl, rfl⟩
    exact ⟨i, x, hi, [], rfl, hx, rfl, rfl⟩

end Enumerates

/-! ## The check -/

namespace Routine

theorem enumerates_instruction (r : Routine) (label : Label) (size index : Nat) (i : Instruction) :
    Enumerates (fun place v =>
      (i.isTerminator = true ∧ index + 1 ≠ size) ∧ place = [0] ∧
          v = .afterTerminator r.name label (index + 1) ∨
        ∃ k t, i.targets[k]? = some t ∧ t ∉ r.blocks.keys ∧ place = [1, k] ∧
          v = .unknownTarget r.name label index t)
      (r.instructionViolations label size index i) := by
  have hearly : (i.isTerminator && index + 1 != size) = true ↔
      i.isTerminator = true ∧ index + 1 ≠ size := by simp
  have htarget : ∀ t, (!r.blocks.contains t) = true ↔ t ∉ r.blocks.keys := by
    simp [← Keyed.contains_iff]
  unfold instructionViolations
  refine ((Enumerates.ifBroken _ [0] _).append ((Enumerates.filter_map _ _ _).under 1) ?_).congr
    fun place v => or_congr (and_congr_left' hearly) ?_
  · rintro _ _ _ _ ⟨-, rfl, -⟩ ⟨_, rfl, -⟩
    exact Place.before_cons_iff.2 (.inl Nat.zero_lt_one)
  · constructor
    · rintro ⟨_, rfl, k, t, hk, ht, rfl, rfl⟩
      exact ⟨k, t, hk, (htarget t).1 ht, rfl, rfl⟩
    · rintro ⟨k, t, hk, ht, rfl, rfl⟩
      exact ⟨[k], rfl, k, t, hk, (htarget t).2 ht, rfl, rfl⟩

theorem unterminated_iff {b : BasicBlock} :
    (!b.instructions.isEmpty && b.terminator.isNone) = true ↔
      ∃ i, b.instructions.getLast? = some i ∧ i.isTerminator = false := by
  rcases List.eq_nil_or_concat b.instructions with hb | ⟨front, last, hb⟩
  · simp [hb]
  · cases h : last.isTerminator <;> simp [BasicBlock.terminator, hb, h]

theorem enumerates_block (r : Routine) (b : BasicBlock) :
    Enumerates (r.BreaksIn b) (r.blockViolations b) := by
  have hinstructions := Enumerates.table fun index i (_ : b.instructions[index]? = some i) =>
    r.enumerates_instruction b.label b.instructions.length index i
  unfold blockViolations
  refine ((hinstructions.under 1).append (Enumerates.ifBroken _ [2] _) ?_).congr fun place v => ?_
  · rintro _ _ _ _ ⟨_, rfl, -⟩ ⟨-, rfl, -⟩
    exact Place.before_cons_iff.2 (.inl Nat.one_lt_two)
  · constructor
    · rintro (⟨_, rfl, index, i, hi, _, rfl, ⟨⟨hterminator, hne⟩, rfl, rfl⟩ |
        ⟨k, t, hk, ht, rfl, rfl⟩⟩ | ⟨hend, rfl, rfl⟩)
      · obtain ⟨hlt, -⟩ := List.getElem?_eq_some_iff.1 hi
        exact .afterTerminator hi hterminator (Nat.lt_of_le_of_ne hlt hne)
      · exact .unknownTarget hi hk ht
      · obtain ⟨i, hi, hterminator⟩ := unterminated_iff.1 hend
        exact .missingTerminator hi hterminator
    · intro hbreaks
      cases hbreaks with
      | afterTerminator hi hterminator hlt =>
        exact .inl ⟨_, rfl, _, _, hi, _, rfl, .inl ⟨⟨hterminator, Nat.ne_of_lt hlt⟩, rfl, rfl⟩⟩
      | unknownTarget hi hk ht =>
        exact .inl ⟨_, rfl, _, _, hi, _, rfl, .inr ⟨_, _, hk, ht, rfl, rfl⟩⟩
      | missingTerminator hi hterminator =>
        exact .inr ⟨unterminated_iff.2 ⟨_, hi, hterminator⟩, rfl, rfl⟩

theorem enumerates_violations (r : Routine) : Enumerates r.Breaks r.violations := by
  have hentry : ¬ r.blocks.contains r.entry = true ↔ r.entry ∉ r.blocks.keys :=
    not_congr Keyed.contains_iff
  have hhalting : r.haltingBlocks.isEmpty = true ↔ ∀ b ∈ r.blocks.values, b.instructions ≠ [] := by
    simp [haltingBlocks, BasicBlock.isHalting]
  have hblock : ∀ e : Label × BasicBlock, Enumerates
      (fun place v => (¬ e.1 = e.2.label ∧ place = [0] ∧ v = .blockKey r.name e.1 e.2.label) ∨
        r.BreaksIn e.2 place v)
      ((if e.1 = e.2.label then [] else [.blockKey r.name e.1 e.2.label]) ++
        r.blockViolations e.2) := by
    intro e
    refine (Enumerates.unlessKept _ [0] _).append (r.enumerates_block e.2) ?_
    rintro _ _ _ _ ⟨-, rfl, -⟩ hbreaks
    cases hbreaks <;> exact Place.before_cons_iff.2 (.inl (by decide))
  unfold violations
  refine (((Enumerates.unlessKept _ [1] _).append (Enumerates.ifBroken _ [2] _) ?_).append
    ((Enumerates.flatMap hblock).under 3) ?_).congr fun place v => ?_
  · rintro _ _ _ _ ⟨-, rfl, -⟩ ⟨-, rfl, -⟩
    exact Place.before_cons_iff.2 (.inl (by decide))
  · rintro _ _ _ _ (⟨-, rfl, -⟩ | ⟨-, rfl, -⟩) ⟨_, rfl, -⟩ <;>
      exact Place.before_cons_iff.2 (.inl (by decide))
  · constructor
    · rintro ((⟨hno, rfl, rfl⟩ | ⟨hno, rfl, rfl⟩) |
        ⟨_, rfl, k, ⟨key, b⟩, hk, _, rfl, ⟨hkey, rfl, rfl⟩ | hinside⟩)
      · exact .missingEntry (hentry.1 hno)
      · exact .noHaltingBlock (hhalting.1 hno)
      · exact .blockKey hk hkey
      · exact .inside hk hinside
    · intro hbreaks
      cases hbreaks with
      | missingEntry hno => exact .inl (.inl ⟨hentry.2 hno, rfl, rfl⟩)
      | noHaltingBlock hno => exact .inl (.inr ⟨hhalting.2 hno, rfl, rfl⟩)
      | blockKey hk hkey => exact .inr ⟨_, rfl, _, _, hk, _, rfl, .inl ⟨hkey, rfl, rfl⟩⟩
      | inside hk hinside => exact .inr ⟨_, rfl, _, _, hk, _, rfl, .inr hinside⟩

end Routine

namespace Program

theorem enumerates_violations (p : Program) : Enumerates p.Breaks p.violations := by
  have hroutine : ∀ e : String × Routine, Enumerates
      (fun place v => (¬ e.1 = e.2.name ∧ place = [0] ∧ v = .routineKey e.1 e.2.name) ∨
        e.2.Breaks place v)
      ((if e.1 = e.2.name then [] else [.routineKey e.1 e.2.name]) ++ e.2.violations) := by
    intro e
    refine (Enumerates.unlessKept _ [0] _).append e.2.enumerates_violations ?_
    rintro _ _ _ _ ⟨-, rfl, -⟩ hbreaks
    cases hbreaks <;> exact Place.before_cons_iff.2 (.inl (by decide))
  unfold violations
  refine (Enumerates.flatMap hroutine).congr fun place v => ?_
  constructor
  · rintro ⟨k, ⟨key, r⟩, hk, _, rfl, ⟨hkey, rfl, rfl⟩ | hinside⟩
    · exact .routineKey hk hkey
    · exact .inside hk hinside
  · intro hbreaks
    cases hbreaks with
    | routineKey hk hkey => exact ⟨_, _, hk, _, rfl, .inl ⟨hkey, rfl, rfl⟩⟩
    | inside hk hinside => exact ⟨_, _, hk, _, rfl, .inr hinside⟩

/-- **The check reports exactly what is broken.** Nothing is reported if and only if every routine
is stored under its name and well-formed. Otherwise there is one report for each place where a rule
is broken, in the order of the places, and it names what stands there. -/
theorem violations_exact (p : Program) :
    (p.violations = [] ↔ ∀ key r, (key, r) ∈ p.routines.entries → key = r.name ∧ r.WF) ∧
    ∃ located : List (Place × Violation), located.map Prod.snd = p.violations ∧
      located.Pairwise (fun e e' => e.1.Before e'.1) ∧
      ∀ place v, (place, v) ∈ located ↔ p.Breaks place v :=
  ⟨violations_eq_nil_iff, p.enumerates_violations⟩

-- a jump too early and to nowhere, in a block that does not end in one
example :
    (Program.empty.addRoutine ⟨"thread_s", "missing", Keyed.ofList [("a", ⟨"a",
      [(Action.jump "ghost").untagged, (Action.declare "x" (.var "y")).untagged]⟩)]⟩).violations =
      [.missingEntry "thread_s" "missing", .noHaltingBlock "thread_s",
        .afterTerminator "thread_s" "a" 1, .unknownTarget "thread_s" "a" 0 "ghost",
        .missingTerminator "thread_s" "a"] := by
  decide

end Program

end TuneBlocks
