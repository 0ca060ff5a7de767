import TuneBlocks.Proofs.LoopCode
import TuneBlocks.Proofs.Meaning
import TuneBlocks.Proofs.Trails
import TuneBlocks.Proofs.WholeDoubles

/-!
# Counted loops

A counted loop begins as many passes as its counter can be increased before it is no longer below
the bound (`Value.StopsAt`). That is so whatever is in the body and around the loop, as long as the
loop is left undisturbed while it runs (`Loop.Undisturbed`): the body does not write the counter,
the bound stays what it is and each pass comes to its end. Doubles count whole numbers exactly up to
`2 ^ 53`, so a loop with such a bound has as many passes as the bound says (`stopsAt_ofNat`).

`Loop.Runs` is the execution of a loop until it is left, with the number of passes that were begun.
One round, from the test to the test, is `Loop.Coded.round`, and all rounds follow by induction
(`Loop.Coded.rounds`).
-/

namespace TuneBlocks

/-! ## Counting -/

namespace Value

/-- The values of a counter. -/
def tally : Nat → Value
  | 0 => .number 0
  | k + 1 => (tally k).add (.number 1)

/-- Counting from zero is below the bound until `K` is reached, and is not below it then. -/
def StopsAt (N : Value) (K : Nat) : Prop :=
  (tally K).compare .lt N = false ∧ ∀ k < K, (tally k).compare .lt N = true

theorem isWhole_tally {k : Nat} (h : k ≤ 2 ^ 53) : IsWhole (tally k).toNumber k := by
  induction k with
  | zero => exact isWhole_ofNat h
  | succ k ih => exact (ih (Nat.le_of_succ_le h)).add (isWhole_ofNat (by decide)) h

theorem exists_stopsAt {N : Value} {k : Nat} (h : (tally k).compare .lt N = false) :
    ∃ K, N.StopsAt K := by
  have hexists : ∃ k, (tally k).compare .lt N = false := ⟨k, h⟩
  refine ⟨Nat.find hexists, Nat.find_spec hexists, fun j hj => ?_⟩
  exact Bool.eq_true_of_not_eq_false (Nat.find_min hexists hj)

/-- Doubles count exactly to whole numbers that are not too large. -/
theorem stopsAt_ofNat {N : Value} {j : Nat} (h : j ≤ 2 ^ 53) (hN : N.toNumber = Float.ofNat j) :
    N.StopsAt j := by
  have hcompare : ∀ k ≤ j, ((tally k).compare .lt N = true ↔ k < j) := by
    intro k hk
    rw [compare, decide_eq_true_iff, hN]
    exact (isWhole_tally (hk.trans h)).lt_iff (isWhole_ofNat h)
  refine ⟨?_, fun k hk => (hcompare k hk.le).2 hk⟩
  rw [← Bool.not_eq_true, hcompare j le_rfl]
  exact lt_irrefl j

end Value

/-! ## Execution of a loop -/

namespace Loop

variable {σ : Type} {registry : Registry σ} {r : Routine} {l : Loop} {code : List BasicBlock}
  {p q : Position} {n k : Nat}

/-- One, if a pass of the body begins at the position. -/
def entries (l : Loop) (p : Position) : Nat := if p.Begins l.body then 1 else 0

/-- A number of instructions executed from one position to another before the loop is left, with the
number of passes that begin on the way. -/
inductive Runs (registry : Registry σ) (r : Routine) (l : Loop) :
    Nat → Nat → Position → Position → Prop
  | refl {p : Position} : Runs registry r l 0 0 p p
  | head {p p' q : Position} {n k : Nat} : p.block ≠ l.exit → r.Leads registry p p' →
      Runs registry r l n k p' q → Runs registry r l (n + 1) (l.entries p + k) p q

namespace Runs

theorem single (hp : p.block ≠ l.exit) (h : r.Leads registry p q) :
    Runs registry r l 1 (l.entries p) p q :=
  .head hp h .refl

theorem trans {n' k' : Nat} {q' : Position} (h : Runs registry r l n k p q)
    (h' : Runs registry r l n' k' q q') : Runs registry r l (n + n') (k + k') p q' := by
  induction h with
  | refl =>
    rw [Nat.zero_add, Nat.zero_add]
    exact h'
  | head hp hlead _ ih =>
    rw [Nat.succ_add, Nat.add_assoc]
    exact .head hp hlead (ih h')

/-- A trail goes along with the loop for as long as it is run. -/
theorem along (h : Runs registry r l n k p q) {trail : List Position}
    (hchain : trail.IsChain (r.Leads registry)) (hhead : trail.head? = some p) :
    (∀ p' ∈ trail.take n, p'.block ≠ l.exit ∧ r.instruction? p' ≠ none) ∧
      (n < trail.length → trail[n]? = some q ∧
        (trail.take n).countP (fun p' => p'.Begins l.body) = k) := by
  induction h generalizing trail with
  | refl =>
    refine ⟨fun p' hp' => ?_, fun _ => ⟨?_, rfl⟩⟩
    · cases hp'
    · rw [← hhead, List.head?_eq_getElem?]
  | @head p p' q n k hp hlead _ ih =>
    obtain ⟨rest, rfl⟩ := List.head?_eq_some_iff.1 hhead
    have hfetch : r.instruction? p ≠ none := by
      obtain ⟨i, hi, -⟩ := hlead
      rw [hi]
      exact Option.some_ne_none i
    rw [List.take_succ_cons, List.countP_cons]
    cases rest with
    | nil =>
      rw [List.take_nil]
      refine ⟨fun p' hp' => ?_, fun hlt => ?_⟩
      · rw [List.mem_singleton.1 hp']
        exact ⟨hp, hfetch⟩
      · exact absurd hlt (Nat.not_lt.2 (Nat.le_add_left 1 n))
    | cons next rest =>
      obtain ⟨hnext, hrest⟩ := List.isChain_cons_cons.1 hchain
      obtain ⟨hstays, hleaves⟩ := ih hrest (congrArg some (hnext.unique hlead))
      refine ⟨List.forall_mem_cons.2 ⟨⟨hp, hfetch⟩, hstays⟩, fun hlt => ?_⟩
      obtain ⟨hq, hcount⟩ := hleaves (Nat.lt_of_succ_lt_succ hlt)
      refine ⟨hq, ?_⟩
      rw [hcount, entries, Nat.add_comm]
      simp only [decide_eq_true_eq]

/-- A loop that is left has been run along the trail. -/
theorem mem_trail (h : Runs registry r l n k p q) {trail : List Position}
    (hchain : trail.IsChain (r.Leads registry)) (hhead : trail.head? = some p)
    (hexit : ∃ p' ∈ trail, p'.block = l.exit) : q ∈ trail := by
  obtain ⟨hstays, hleaves⟩ := h.along hchain hhead
  obtain ⟨p', hmem, hblock⟩ := hexit
  have hlt : n < trail.length := by
    apply Nat.lt_of_not_le
    intro hle
    rw [List.take_of_length_le hle] at hstays
    exact (hstays p' hmem).1 hblock
  exact List.mem_of_getElem? (hleaves hlt).1

end Runs

/-- While the loop is run from a position on, nothing but its own blocks writes the counter, the
bound has one value and every pass of the body comes to its end. -/
structure Undisturbed (registry : Registry σ) (r : Routine) (l : Loop) (N : Value)
    (p : Position) : Prop where
  spares : ∀ {n k q i}, l.Runs registry r n k p q → q.block ≠ l.exit →
    q.block ∉ l.blocks.map BasicBlock.label → r.instruction? q = some i →
    ∀ e ∈ i.action.effectsIn registry q.memory, e.written? ≠ some l.counter
  bound : ∀ {n k q}, l.Runs registry r n k p q → q.block = l.cond → q.memory.resolve l.bound = N
  completes : ∀ {n k q}, l.Runs registry r n k p q → q.Begins l.body →
    ∃ n' k' q', l.Runs registry r n' k' q q' ∧ q'.Begins l.increment

theorem Undisturbed.of_runs {N : Value} (h : l.Undisturbed registry r N p)
    (hruns : l.Runs registry r n k p q) : l.Undisturbed registry r N q where
  spares hrest := h.spares (hruns.trans hrest)
  bound hrest := h.bound (hruns.trans hrest)
  completes hrest := h.completes (hruns.trans hrest)

end Loop

/-! ## Passes of the body -/

/-- The position is at an instruction of the code. -/
def Inside (code : List BasicBlock) (p : Position) : Prop :=
  ∃ b ∈ code, p.block = b.label ∧ p.ip < b.instructions.length

section
variable {σ : Type} {registry : Registry σ} {r : Routine} {code : List BasicBlock}
  {out : Label → Prop} {p q : Position}

theorem Inside.mem_labels (h : Inside code p) : p.block ∈ code.map BasicBlock.label := by
  obtain ⟨b, hb, hlabel, -⟩ := h
  exact List.mem_map.2 ⟨b, hb, hlabel.symm⟩

theorem StaysIn.inside_of_mem (h : StaysIn code out) {label : Label}
    (hlabel : label ∈ code.map BasicBlock.label) (memory : Memory) :
    Inside code ⟨label, 0, memory⟩ := by
  obtain ⟨b, hb, rfl⟩ := List.mem_map.1 hlabel
  exact ⟨b, hb, rfl, List.length_pos_iff.2 (h b hb).1⟩

/-- An instruction of the code leads on in its block, or to the target of a jump in the code or out
of it. -/
theorem StaysIn.leads (h : StaysIn code out) (hholds : r.Holds code) (hp : Inside code p)
    (hlead : r.Leads registry p q) :
    Inside code q ∧ q.ip ≠ 0 ∨
      q.ip = 0 ∧ (∃ b ∈ code, ∃ i ∈ b.instructions, q.block ∈ i.targets) ∧
        (out q.block ∨ Inside code q) := by
  obtain ⟨b, hb, hlabel, hip⟩ := hp
  obtain ⟨i, hi, rfl⟩ := hlead
  rw [Routine.instruction?, hlabel, hholds b hb] at hi
  have hfetch : b.instructions[p.ip]? = some i := hi
  obtain ⟨-, hwf⟩ := h b hb
  by_cases hterminator : i.isTerminator = true
  · obtain ⟨t, ht, hafter⟩ := Interpreter.after_of_terminator registry hterminator p
    have hmem := List.mem_of_getElem? hfetch
    rw [hafter]
    refine .inr ⟨rfl, ⟨b, hb, i, hmem, ht⟩, ?_⟩
    exact (hwf.targets i hmem t ht).imp_right fun hlabel => h.inside_of_mem hlabel p.memory
  · rw [Interpreter.after_of_not_terminator registry (Bool.not_eq_true _ ▸ hterminator)]
    have hlast := fun hlast => hterminator ((hwf.jumps hfetch).2 hlast)
    refine .inl ⟨⟨b, hb, hlabel, ?_⟩, Nat.succ_ne_zero _⟩
    exact Nat.lt_of_le_of_ne hip hlast

/-- Nothing leads out of a trap. -/
theorem StaysIn.inside_of_leads (h : StaysIn code fun _ => False) (hholds : r.Holds code)
    (hp : Inside code p) (hlead : r.Leads registry p q) : Inside code q := by
  rcases h.leads hholds hp hlead with hinside | ⟨-, -, hinside⟩
  · exact hinside.1
  · exact hinside.resolve_left id

end

namespace Loop

variable {σ : Type} {registry : Registry σ} {r : Routine} {l : Loop} {code : List BasicBlock}
  {p q : Position} {n k : Nat} {N : Value}

theorem entries_eq_zero (h : ¬ p.Begins l.body) : l.entries p = 0 := if_neg h

theorem entries_body (l : Loop) (memory : Memory) : l.entries ⟨l.body, 0, memory⟩ = 1 :=
  if_pos ⟨rfl, rfl⟩

/-- Code that is never left catches the loop. -/
theorem Runs.inside_of_trap (hruns : l.Runs registry r n k p q) {trap : List BasicBlock}
    (hholds : r.Holds trap) (hstays : StaysIn trap fun _ => False) (hp : Inside trap p) :
    Inside trap q := by
  induction hruns with
  | refl => exact hp
  | head _ hlead _ ih => exact ih (hstays.inside_of_leads hholds hp hlead)

/-- A block of the loop that does something and jumps. -/
theorem runs_act {label target : Label} {a : Action} {source source' : Option NodeId}
    (hb : r.block? label = some ⟨label, [⟨a, source⟩, ⟨.jump target, source'⟩]⟩)
    (ha : a.isTerminator = false) (hlabel : label ≠ l.exit) (memory : Memory) :
    l.Runs registry r 2 (l.entries ⟨label, 0, memory⟩) ⟨label, 0, memory⟩
      ⟨target, 0, memory.performAll (a.effectsIn registry memory)⟩ := by
  have hact : r.Leads registry ⟨label, 0, memory⟩
      ⟨label, 1, memory.performAll (a.effectsIn registry memory)⟩ :=
    ⟨_, Interpreter.instruction?_of_block memory hb 0,
      (Interpreter.after_of_not_terminator registry ha ⟨label, 0, memory⟩).symm⟩
  have hjump : r.Leads registry ⟨label, 1, memory.performAll (a.effectsIn registry memory)⟩
      ⟨target, 0, memory.performAll (a.effectsIn registry memory)⟩ :=
    ⟨_, Interpreter.instruction?_of_block _ hb 1, rfl⟩
  have hruns := (Runs.single hlabel hact).trans (Runs.single (l := l) hlabel hjump)
  rwa [entries_eq_zero (p := ⟨label, 1, _⟩) fun h => Nat.one_ne_zero h.2] at hruns

namespace Coded

theorem labels_nodup (h : l.Coded r code) :
    (l.exit :: l.init :: l.cond :: l.increment :: code.map BasicBlock.label).Nodup :=
  h.fresh

theorem ne_exit (h : l.Coded r code) {label : Label}
    (hlabel : label ∈ (l.blocks ++ code).map BasicBlock.label) : label ≠ l.exit := by
  rintro rfl
  exact (List.nodup_cons.1 h.fresh).1 hlabel

theorem body_ne (h : l.Coded r code) : l.body ≠ l.exit ∧ l.body ≠ l.init ∧ l.body ≠ l.cond := by
  have hnodup := h.labels_nodup
  simp only [List.nodup_cons, List.mem_cons, not_or] at hnodup
  obtain ⟨hexit, hinit, hcond, -⟩ := hnodup
  rcases h.entry with hbody | hbody
  · rw [hbody]
    exact ⟨Ne.symm hexit.2.2.1, Ne.symm hinit.2.1, Ne.symm hcond.1⟩
  · refine ⟨?_, ?_, ?_⟩
    · exact fun heq => hexit.2.2.2 (heq ▸ hbody)
    · exact fun heq => hinit.2.2 (heq ▸ hbody)
    · exact fun heq => hcond.2 (heq ▸ hbody)

/-- The code of the body is apart from the loop's own blocks and from its exit. -/
theorem apart (h : l.Coded r code) {label : Label} (hlabel : label ∈ code.map BasicBlock.label) :
    label ≠ l.exit ∧ label ∉ l.blocks.map BasicBlock.label := by
  have hfresh := h.fresh
  rw [List.map_append, ← List.cons_append, List.nodup_append] at hfresh
  refine ⟨fun heq => ?_, fun hmem => ?_⟩
  · exact hfresh.2.2 _ List.mem_cons_self _ hlabel heq.symm
  · exact hfresh.2.2 _ (List.mem_cons_of_mem _ hmem) _ hlabel rfl

/-- The counter is set to zero. -/
theorem start (h : l.Coded r code) (registry : Registry σ) (memory : Memory) :
    l.Runs registry r 2 0 ⟨l.init, 0, memory⟩
      ⟨l.cond, 0, memory.declare l.counter (Value.tally 0)⟩ := by
  obtain ⟨hinit, -⟩ := Routine.holds_cons.1 h.own
  have hexit : l.init ≠ l.exit := h.ne_exit List.mem_cons_self
  have hruns : l.Runs registry r 2 _ _ _ := runs_act hinit rfl hexit memory
  rwa [entries_eq_zero fun hbegins => h.body_ne.2.1 hbegins.1.symm] at hruns

/-- The counter is compared with the bound. -/
theorem test (h : l.Coded r code) (registry : Registry σ) (memory : Memory) :
    l.Runs registry r 1 0 ⟨l.cond, 0, memory⟩
      ⟨if (memory.lookup l.counter).compare .lt (memory.resolve l.bound) then l.body else l.exit, 0,
        memory⟩ := by
  obtain ⟨-, hcond⟩ := Routine.holds_cons.1 h.own
  obtain ⟨hcond, -⟩ := Routine.holds_cons.1 hcond
  have hexit : l.cond ≠ l.exit := h.ne_exit (List.mem_cons_of_mem _ List.mem_cons_self)
  have hruns : l.Runs registry r 1 _ ⟨l.cond, 0, memory⟩ _ :=
    .single hexit ⟨_, Interpreter.instruction?_of_block memory hcond 0, rfl⟩
  rwa [entries_eq_zero fun hbegins => h.body_ne.2.2 hbegins.1.symm] at hruns

/-- The counter is increased. -/
theorem advance (h : l.Coded r code) (registry : Registry σ) (memory : Memory) :
    l.Runs registry r 2 (l.entries ⟨l.increment, 0, memory⟩) ⟨l.increment, 0, memory⟩
      ⟨l.cond, 0, memory.assign l.counter ((memory.lookup l.counter).add (.number 1))⟩ := by
  have hincrement := h.own ⟨l.increment, _⟩
    (List.mem_cons_of_mem _ (List.mem_cons_of_mem _ List.mem_cons_self))
  have hexit : l.increment ≠ l.exit :=
    h.ne_exit (List.mem_cons_of_mem _ (List.mem_cons_of_mem _ List.mem_cons_self))
  exact runs_act hincrement rfl hexit memory

/-- Execution that gets from the body to the increment begins no further pass on the way, and leaves
the counter alone. -/
theorem crosses (h : l.Coded r code) (hne : l.body ≠ l.increment)
    (honce : ∀ b ∈ code, ∀ i ∈ b.instructions, l.body ∉ i.targets)
    (hun : l.Undisturbed registry r N p) (hp : Inside code p ∨ p.Begins l.increment)
    (hruns : l.Runs registry r n k p q) (hq : q.Begins l.increment) :
    ∃ n' memory, l.Runs registry r n' (l.entries p) p ⟨l.increment, 0, memory⟩ ∧
      memory.lookup l.counter = p.memory.lookup l.counter := by
  have harrived : ∀ {p : Position}, p.Begins l.increment →
      ∃ n' memory, l.Runs registry r n' (l.entries p) p ⟨l.increment, 0, memory⟩ ∧
        memory.lookup l.counter = p.memory.lookup l.counter := by
    rintro ⟨block, ip, memory⟩ ⟨hblock, hip⟩
    cases hblock
    cases hip
    rw [entries_eq_zero fun hbegins => hne hbegins.1.symm]
    exact ⟨0, memory, .refl, rfl⟩
  induction hruns with
  | refl => exact harrived hq
  | @head p p' q n k hexit hlead _ ih =>
    rcases hp with hp | hp
    · -- a jump inside the body does not lead to its beginning
      have hnext : (Inside code p' ∨ p'.Begins l.increment) ∧ l.entries p' = 0 := by
        rcases h.staysIn.leads h.below hp hlead with ⟨hinside, hip⟩ | ⟨hip, htarget, hinside⟩
        · exact ⟨.inl hinside, entries_eq_zero fun hbegins => hip hbegins.2⟩
        · refine ⟨hinside.symm.imp_right fun hout => ⟨hout, hip⟩, entries_eq_zero ?_⟩
          intro hbegins
          obtain ⟨b, hb, i, hi, ht⟩ := htarget
          exact honce b hb i hi (hbegins.1 ▸ ht)
      obtain ⟨n', memory, hruns, hcounter⟩ :=
        ih (hun.of_runs (.single hexit hlead)) hnext.1 hq
      rw [hnext.2] at hruns
      refine ⟨n' + 1, memory, .head hexit hlead hruns, hcounter.trans ?_⟩
      obtain ⟨i, hi, rfl⟩ := hlead
      rw [Position.memory_after]
      exact Memory.lookup_performAll (hun.spares .refl hexit (h.apart hp.mem_labels).2 hi) _
    · exact harrived hp

/-- **One pass.** From the beginning of the body execution gets to the test, with the counter
increased by one. -/
theorem pass (h : l.Coded r code) {memory : Memory}
    (hun : l.Undisturbed registry r N ⟨l.body, 0, memory⟩) :
    ∃ n memory', l.Runs registry r n 1 ⟨l.body, 0, memory⟩ ⟨l.cond, 0, memory'⟩ ∧
      memory'.lookup l.counter = (memory.lookup l.counter).add (.number 1) := by
  by_cases hempty : l.body = l.increment
  · have hruns := h.advance registry memory
    rw [← hempty, entries_body] at hruns
    exact ⟨2, _, hruns, Memory.lookup_assign ..⟩
  · have hbody := h.entry.resolve_left hempty
    obtain ⟨n, k, q, hruns, hq⟩ := hun.completes .refl ⟨rfl, rfl⟩
    rcases h.once with honce | ⟨trap, hsubset, hentry, hstays⟩
    · obtain ⟨n', memory', hcross, hcounter⟩ := h.crosses hempty
        (fun b hb i hi ht => hempty (honce b hb i hi ht)) hun
        (.inl (h.staysIn.inside_of_mem hbody memory)) hruns hq
      have hall := hcross.trans (h.advance registry memory')
      rw [entries_body, entries_eq_zero fun hbegins => hempty hbegins.1.symm] at hall
      refine ⟨_, _, hall, ?_⟩
      rw [Memory.lookup_assign, hcounter]
    · -- control that is caught does not complete the pass
      have hcaught := hruns.inside_of_trap (fun b hb => h.below b (hsubset hb)) hstays
        (hstays.inside_of_mem hentry memory)
      have hlabel := List.map_subset BasicBlock.label hsubset hcaught.mem_labels
      refine absurd ?_ (h.apart hlabel).2
      rw [hq.1]
      exact List.mem_cons_of_mem _ (List.mem_cons_of_mem _ List.mem_cons_self)

/-- **One round.** If the counter is below the bound, a pass is made and the test comes again. -/
theorem round (h : l.Coded r code) {memory : Memory}
    (hun : l.Undisturbed registry r N ⟨l.cond, 0, memory⟩)
    (hbelow : (memory.lookup l.counter).compare .lt N = true) :
    ∃ n memory', l.Runs registry r (n + 1) 1 ⟨l.cond, 0, memory⟩ ⟨l.cond, 0, memory'⟩ ∧
      memory'.lookup l.counter = (memory.lookup l.counter).add (.number 1) := by
  have htest := h.test registry memory
  have hbound : memory.resolve l.bound = N := hun.bound .refl rfl
  rw [hbound, if_pos hbelow] at htest
  obtain ⟨n, memory', hruns, hcounter⟩ := h.pass (hun.of_runs htest)
  refine ⟨n, memory', ?_, hcounter⟩
  rw [Nat.add_comm]
  exact htest.trans hruns

/-- **All rounds.** As many passes can be made as the counter is below the bound. -/
theorem rounds (h : l.Coded r code) {memory : Memory}
    (hun : l.Undisturbed registry r N ⟨l.cond, 0, memory⟩)
    (hzero : memory.lookup l.counter = Value.tally 0) {K : Nat}
    (hbelow : ∀ k < K, (Value.tally k).compare .lt N = true) :
    ∃ n memory', K ≤ n ∧ l.Runs registry r n K ⟨l.cond, 0, memory⟩ ⟨l.cond, 0, memory'⟩ ∧
      memory'.lookup l.counter = Value.tally K := by
  induction K with
  | zero => exact ⟨0, memory, le_rfl, .refl, hzero⟩
  | succ K ih =>
    obtain ⟨n, memory', hle, hruns, hcounter⟩ := ih fun k hk => hbelow k (Nat.lt_succ_of_lt hk)
    have hlast := hbelow K (Nat.lt_succ_self K)
    rw [← hcounter] at hlast
    obtain ⟨n', memory'', hround, hnext⟩ := h.round (hun.of_runs hruns) hlast
    refine ⟨_, memory'', Nat.add_le_add hle (Nat.le_add_left 1 n'), hruns.trans hround, ?_⟩
    rw [hnext, hcounter, Value.tally]

/-- The loop is left after the passes that its bound allows. -/
theorem leaves (h : l.Coded r code) {memory : Memory}
    (hun : l.Undisturbed registry r N ⟨l.init, 0, memory⟩) {K : Nat} (hK : N.StopsAt K) :
    ∃ n memory', l.Runs registry r n K ⟨l.init, 0, memory⟩ ⟨l.exit, 0, memory'⟩ := by
  have hstart := h.start registry memory
  obtain ⟨n, memory', -, hruns, hcounter⟩ :=
    h.rounds (hun.of_runs hstart) (Memory.lookup_declare ..) hK.2
  have hrounds := hstart.trans hruns
  have htest := h.test registry memory'
  have hbound : memory'.resolve l.bound = N := hun.bound hrounds rfl
  rw [hbound, hcounter, if_neg (Bool.eq_false_iff.1 hK.1)] at htest
  have hall := hrounds.trans htest
  rw [Nat.zero_add, Nat.add_zero] at hall
  exact ⟨_, memory', hall⟩

/-- The loop goes on for as long as its bound is not reached. -/
theorem goes_on (h : l.Coded r code) {memory : Memory}
    (hun : l.Undisturbed registry r N ⟨l.init, 0, memory⟩)
    (hbelow : ∀ k, (Value.tally k).compare .lt N = true) (K : Nat) :
    ∃ n q, K ≤ n ∧ l.Runs registry r n K ⟨l.init, 0, memory⟩ q := by
  have hstart := h.start registry memory
  obtain ⟨n, memory', hle, hruns, -⟩ :=
    h.rounds (K := K) (hun.of_runs hstart) (Memory.lookup_declare ..) fun k _ => hbelow k
  have hrounds := hstart.trans hruns
  rw [Nat.zero_add] at hrounds
  exact ⟨2 + n, _, Nat.le_add_left_of_le hle, hrounds⟩

end Coded

end Loop

/-! ## Loops of threads -/

namespace Loop

variable {σ : Type} {m : Interpreter σ} {routine : String} {r : Routine} {l : Loop} {c : Context}

/-- However the thread is sliced, it leaves the loop after a number of passes: there is an
instruction before which it does not leave, at which it is at the exit with the passes behind it,
and to which it gets when it is given enough slices. -/
def LeftAfter (m : Interpreter σ) (routine : String) (c : Context) (l : Loop) (K : Nat) : Prop :=
  ∃ n, ∀ calls : List (SliceCall σ),
    (∀ p ∈ (m.trail routine c calls).take n, p.block ≠ l.exit) ∧
      (n < (m.trail routine c calls).length →
        (∃ memory, (m.trail routine c calls)[n]? = some ⟨l.exit, 0, memory⟩) ∧
          ((m.trail routine c calls).take n).countP (fun p => p.Begins l.body) = K) ∧
      ((∀ call ∈ calls, Interpreter.Plain call) → n ≤ calls.length →
        n < (m.trail routine c calls).length)

theorem Runs.leftAfter {n K : Nat} {memory : Memory}
    (hruns : l.Runs m.registry r n K c.position ⟨l.exit, 0, memory⟩)
    (hregistry : m.registry.Transparent) (hr : m.program.routine? routine = some r) :
    l.LeftAfter m routine c K := by
  refine ⟨n, fun calls => ?_⟩
  obtain ⟨hchain, hhead⟩ := Interpreter.trail_isChain hregistry hr c calls
  obtain ⟨hstays, hleaves⟩ := hruns.along hchain hhead
  refine ⟨fun p hp => (hstays p hp).1, fun hlt => ?_, fun hcalls hle => ?_⟩
  · obtain ⟨hexit, hcount⟩ := hleaves hlt
    exact ⟨⟨memory, hexit⟩, hcount⟩
  · apply Nat.lt_of_not_le
    intro hshort
    -- the thread is still in the loop, where it is never stuck
    have hlast := hstays (m.contextAfter routine c calls).position <| by
      rw [List.take_of_length_le hshort]
      exact List.mem_append_right _ (List.mem_singleton_self _)
    have hlength := (Interpreter.length_dispatchesAfter hr c hcalls).resolve_right hlast.2
    rw [Interpreter.trail, List.length_append, List.length_map, List.length_singleton] at hshort
    omega

end Loop

namespace Lowering

variable (σ : Type) [HasSink σ]

/-- **A counted loop has as many passes as are asked for.** Each block of a compiled thread that
sets a counter is the first of a loop, and from there on an undisturbed loop is left after exactly
the passes for which the counter is below the bound, or never if it always is. With a whole number
up to `2 ^ 53` as the bound these are as many passes as the number says. -/
theorem loop_passes_exact (g : Graph) (starts : List Node) (start : Node)
    (hstart : start ∈ starts) :
    let m := machineOf σ g starts
    let r := (compileThread (Registry.standard σ).rules g start.id).1
    (∀ b id v, r.block? b.label = some b →
        (Action.declare (counterName id) v).tagged id ∈ b.instructions →
        ∃ l ∈ threadLoops g start.id, l.init = b.label ∧ l.node = id) ∧
      ∀ l ∈ threadLoops g start.id, r.Holds l.blocks ∧ ∀ (c : Context) (N : Value),
        c.position.Begins l.init → l.Undisturbed m.registry r N c.position →
          (∀ K, N.StopsAt K → l.LeftAfter m (routineName start.id) c K) ∧
          ((¬ ∃ K, N.StopsAt K) →
            ∀ calls, ∀ p ∈ m.trail (routineName start.id) c calls, p.block ≠ l.exit) ∧
          ∀ j ≤ 2 ^ 53, N.toNumber = Float.ofNat j →
            l.LeftAfter m (routineName start.id) c j := by
  intro m r
  have hr : m.program.routine? (routineName start.id) = some r :=
    (routine?_compile_iff _ g starts).2 ⟨start, hstart, rfl, rfl⟩
  have hregistry : m.registry.Transparent := Registry.transparent_standard σ
  refine ⟨fun b id v hb hi => ?_, fun l hl => ?_⟩
  · rcases (compileThread_block σ (Keyed.get?_eq_some_iff.1 hb)).2 with hend | hcode
    · rw [hend] at hi
      cases hi
    · exact Outline.mem_loops_of_declare hcode hi
  · obtain ⟨code, hcoded⟩ := coded_of_mem_threadLoops σ hl
    refine ⟨hcoded.own, fun c N hc hun => ?_⟩
    have hposition : c.position = ⟨l.init, 0, c.memory⟩ := Position.ext hc.1 hc.2 rfl
    rw [hposition] at hun
    have hleaves : ∀ K, N.StopsAt K → l.LeftAfter m (routineName start.id) c K := by
      intro K hK
      obtain ⟨n, memory, hruns⟩ := hcoded.leaves hun hK
      rw [← hposition] at hruns
      exact hruns.leftAfter hregistry hr
    refine ⟨hleaves, fun hnone calls p hp => ?_, fun j hj hN => ?_⟩
    · have hbelow : ∀ k, (Value.tally k).compare .lt N = true := fun k =>
        Bool.eq_true_of_not_eq_false fun hstop => hnone (Value.exists_stopsAt hstop)
      obtain ⟨hchain, hhead⟩ := Interpreter.trail_isChain hregistry hr c calls
      obtain ⟨n, q, hle, hruns⟩ :=
        hcoded.goes_on hun hbelow (m.trail (routineName start.id) c calls).length
      rw [← hposition] at hruns
      have hstays := (hruns.along hchain hhead).1
      rw [List.take_of_length_le hle] at hstays
      exact (hstays p hp).1
    · exact hleaves j (Value.stopsAt_ofNat hj hN)

/-- The loop of `playTwice`. -/
def twiceLoop : Loop where
  node := "twice"
  bound := .literal (.number 2)
  init := "loop_init_twice_3"
  cond := "loop_cond_twice_4"
  increment := "loop_increment_twice_5"
  body := "block_play_note_play_6"
  exit := "block_set_tempo_slow_2"

theorem loop_passes_exact_playTwice :
    twiceLoop ∈ threadLoops playTwice "s" ∧
      twiceLoop.Undisturbed (Registry.standard Sink)
        (compileThread (Registry.standard Sink).rules playTwice "s").1 (.number 2)
        (Context.start "s" twiceLoop.init).position ∧
      twiceLoop.LeftAfter (machineOf Sink playTwice playTwice.nodes) "thread_s"
        (.start "s" twiceLoop.init) 2 := by
  have hloop : twiceLoop ∈ threadLoops playTwice "s" := by decide +kernel
  have hr : (machineOf Sink playTwice playTwice.nodes).program.routine? "thread_s" =
      some (compileThread (Registry.standard Sink).rules playTwice "s").1 :=
    (routine?_compile_iff _ playTwice _).2 ⟨_, List.mem_cons_self, rfl, rfl⟩
  obtain ⟨hchain, hhead⟩ := Interpreter.trail_isChain (Registry.transparent_standard Sink) hr
    (.start "s" twiceLoop.init) [⟨[], 10, 0, .new⟩, ⟨[], 10, 1, .new⟩, ⟨[], 10, 2, .new⟩]
  have hun : twiceLoop.Undisturbed (Registry.standard Sink)
      (compileThread (Registry.standard Sink).rules playTwice "s").1 (.number 2)
      (Context.start "s" twiceLoop.init).position := by
    refine ⟨fun {n k q i} hruns hexit hother hi => ?_, fun _ _ => rfl, fun {n k q} _ hq => ?_⟩
    · -- the three slices go through the whole loop, so that all its positions are on their trail
      have hmem := hruns.mem_trail hchain hhead (by decide +kernel)
      have hspares : ∀ q ∈ (machineOf Sink playTwice playTwice.nodes).trail "thread_s"
          (.start "s" twiceLoop.init) [⟨[], 10, 0, .new⟩, ⟨[], 10, 1, .new⟩, ⟨[], 10, 2, .new⟩],
          q.block ≠ twiceLoop.exit → q.block ∉ twiceLoop.blocks.map BasicBlock.label →
          ∀ i ∈ (compileThread (Registry.standard Sink).rules playTwice "s").1.instruction? q,
          ∀ e ∈ i.action.effectsIn (Registry.standard Sink) q.memory,
            e.written? ≠ some twiceLoop.counter := by
        decide +kernel
      exact hspares q hmem hexit hother i hi
    · obtain ⟨block, ip, memory⟩ := q
      obtain ⟨rfl, rfl⟩ : block = twiceLoop.body ∧ ip = 0 := hq
      have hbody : (compileThread (Registry.standard Sink).rules playTwice "s").1.block?
          twiceLoop.body = some ⟨twiceLoop.body,
            [⟨.call "play_note" [.literal (.text "C4"), .literal (.number 1)], some "play"⟩,
              ⟨.jump twiceLoop.increment, none⟩]⟩ := by
        decide +kernel
      exact ⟨2, _, _, Loop.runs_act hbody rfl (by decide) memory, rfl, rfl⟩
  have hpasses := (loop_passes_exact Sink playTwice playTwice.nodes _ List.mem_cons_self).2
    twiceLoop hloop
  exact ⟨hloop, hun, (hpasses.2 _ _ ⟨rfl, rfl⟩ hun).2.2 2 (by decide) rfl⟩

end Lowering

end TuneBlocks
