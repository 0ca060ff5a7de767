import TuneBlocks.Proofs.SingleStep

/-!
# Cutting a run into slices

A slice ends because its budget is spent, or earlier: the thread halts, comes to a breakpoint, gives
up the rest of the slice, or makes a call that asks for an end (`Stops`). A slice that ends early
does so with any larger budget too, and one whose budget is spent is continued by the next
(`slices_compose`).

A `Dispatch` is one executed instruction, with the thread before and after it. However a run is cut
into slices, its dispatches form one chain (`Linked`): each is of the instruction that the one
before it led to, so that nothing is executed again and nothing is left out.
-/

namespace TuneBlocks

/-- An instruction that was executed, with the thread before and after it. -/
structure Dispatch where
  instruction : Instruction
  before : Context
  after : Context

namespace Interpreter

variable {σ : Type} {registry : Registry σ} {r : Routine} {breakpoints : List NodeId} {now : Float}

/-! ## Ends of slices -/

/-- What ends a slice although it has budget left. -/
inductive Stops (registry : Registry σ) (r : Routine) (breakpoints : List NodeId) (now : Float)
    (c : Context) (w : σ) : SliceEnd σ → Prop
  /-- There is no instruction. -/
  | halted : fetch? r c = none → Stops registry r breakpoints now c w ⟨.halted, c, w⟩
  /-- The next instruction has a breakpoint, at which the thread is not parked yet. -/
  | breakpoint : fetch? r c = some i → i.source = some node → node ∈ breakpoints →
      c.parked ≠ some node →
      Stops registry r breakpoints now c w
        ⟨.breakpoint node, { c with parked := some node }, w⟩
  | yielded : due? r breakpoints c = some i → i.action = .yield →
      Stops registry r breakpoints now c w ⟨.ready, advance c i, w⟩
  /-- The handler of a call asks for the end. -/
  | called : due? r breakpoints c = some i → i.action = .call name args →
      registry.handler? name = some handler →
      handler (args.map c.resolve) now (advance c i) w = ⟨some status, c', w'⟩ →
      Stops registry r breakpoints now c w ⟨status, c', w'⟩

theorem due?_eq_some_iff {c : Context} {i : Instruction} :
    due? r breakpoints c = some i ↔ fetch? r c = some i ∧ stopsAt? breakpoints c i = none := by
  rw [due?, Option.filter_eq_some_iff, Option.isNone_iff_eq_none]

theorem turn_of_due {c : Context} {i : Instruction} (h : due? r breakpoints c = some i) (w : σ) :
    turn registry r breakpoints now c w = execute registry i.action now (advance c i) w := by
  obtain ⟨hfetch, hstop⟩ := due?_eq_some_iff.1 h
  simp only [turn, hfetch, hstop]

theorem stops_of_execute {c : Context} {i : Instruction} (hdue : due? r breakpoints c = some i)
    {w : σ} {e : SliceEnd σ} (h : execute registry i.action now (advance c i) w = .stop e) :
    Stops registry r breakpoints now c w e := by
  cases haction : i.action with
  | call name args =>
    cases hhandler : registry.handler? name with
    | none =>
      simp only [haction, execute, hhandler] at h
      cases h
    | some handler =>
      simp only [haction, execute, hhandler] at h
      split at h
      · rename_i status hstatus
        cases h
        refine .called hdue haction hhandler ?_
        rw [← hstatus]
        rfl
      · cases h
  | yield =>
    rw [haction] at h
    cases h
    exact .yielded hdue haction
  | _ =>
    rw [haction] at h
    cases h

/-- **A turn ends the slice for one of four reasons.** -/
theorem turn_eq_stop_iff {c : Context} {w : σ} {e : SliceEnd σ} :
    turn registry r breakpoints now c w = .stop e ↔ Stops registry r breakpoints now c w e := by
  constructor
  · intro h
    cases hfetch : fetch? r c with
    | none =>
      simp only [turn, hfetch] at h
      cases h
      exact .halted hfetch
    | some i =>
      cases hstop : stopsAt? breakpoints c i with
      | some node =>
        simp only [turn, hfetch, hstop] at h
        cases h
        obtain ⟨hsource, hmem, hparked⟩ := stopsAt?_eq_some_iff.1 hstop
        exact .breakpoint hfetch hsource hmem hparked
      | none =>
        have hdue := due?_eq_some_iff.2 ⟨hfetch, hstop⟩
        rw [turn_of_due hdue] at h
        exact stops_of_execute hdue h
  · intro h
    cases h with
    | halted hfetch => simp only [turn, hfetch]
    | breakpoint hfetch hsource hmem hparked =>
      simp only [turn, hfetch, stopsAt?_eq_some_iff.2 ⟨hsource, hmem, hparked⟩]
    | yielded hdue haction =>
      rw [turn_of_due hdue, haction]
      rfl
    | @called i name args handler status c' w' hdue haction hhandler hreply =>
      have hresolve : (advance c i).resolve = c.resolve := by
        simp only [Context.resolve_eq]
        rfl
      simp only [turn_of_due hdue, haction, execute, hhandler, hresolve, hreply]

/-- A number of turns that all go on. -/
inductive Spends (registry : Registry σ) (r : Routine) (breakpoints : List NodeId) (now : Float) :
    Nat → Context → σ → Context → σ → Prop
  | refl : Spends registry r breakpoints now 0 c w c w
  | head : turn registry r breakpoints now c w = .next c' w' →
      Spends registry r breakpoints now n c' w' c'' w'' →
      Spends registry r breakpoints now (n + 1) c w c'' w''

/-- A turn ends the slice before its budget is spent. -/
inductive StopsWithin (registry : Registry σ) (r : Routine) (breakpoints : List NodeId)
    (now : Float) (budget : Nat) (c : Context) (w : σ) (e : SliceEnd σ) : Prop
  | intro : k < budget → Spends registry r breakpoints now k c w c' w' →
      Stops registry r breakpoints now c' w' e → StopsWithin registry r breakpoints now budget c w e

/-- The instructions that the turns of a slice execute, with the thread before and after each. -/
def dispatches (registry : Registry σ) (r : Routine) (breakpoints : List NodeId) (now : Float) :
    Nat → Context → σ → List Dispatch
  | 0, _, _ => []
  | budget + 1, c, w =>
    ((due? r breakpoints c).toList.map fun i =>
      ⟨i, c, (turn registry r breakpoints now c w).ending.context⟩) ++
        match turn registry r breakpoints now c w with
        | .stop _ => []
        | .next c w => dispatches registry r breakpoints now budget c w

theorem map_instruction_dispatches (budget : Nat) (c : Context) (w : σ) :
    (dispatches registry r breakpoints now budget c w).map Dispatch.instruction =
      executed registry r breakpoints now budget c w := by
  induction budget generalizing c w with
  | zero => rfl
  | succ budget ih =>
    rw [dispatches, executed, List.map_append, List.map_map]
    congr 1
    · exact List.map_id _
    · cases turn registry r breakpoints now c w with
      | stop e => rfl
      | next c w => exact ih c w

namespace Spends

variable {m : Nat} {c c' : Context} {w w' : σ}

theorem run_add (h : Spends registry r breakpoints now m c w c' w') (n : Nat) :
    run registry r breakpoints now (m + n) c w = run registry r breakpoints now n c' w' := by
  induction h with
  | refl => rw [Nat.zero_add]
  | head hturn _ ih =>
    rw [Nat.add_right_comm, run, hturn]
    exact ih

theorem dispatches_add (h : Spends registry r breakpoints now m c w c' w') (n : Nat) :
    dispatches registry r breakpoints now (m + n) c w =
      dispatches registry r breakpoints now m c w ++
        dispatches registry r breakpoints now n c' w' := by
  induction h with
  | refl => rw [Nat.zero_add, dispatches, List.nil_append]
  | head hturn _ ih =>
    rw [Nat.add_right_comm, dispatches, dispatches, hturn, List.append_assoc]
    exact congrArg _ ih

/-- Turns that go on do not stop. -/
theorem not_stopsWithin (h : Spends registry r breakpoints now m c w c' w') {e : SliceEnd σ} :
    ¬ StopsWithin registry r breakpoints now m c w e := by
  rintro ⟨hlt, hspends, hstops⟩
  have hturn := turn_eq_stop_iff.2 hstops
  induction hspends generalizing m with
  | refl =>
    cases h with
    | refl => exact Nat.lt_irrefl 0 hlt
    | head hnext _ =>
      rw [hturn] at hnext
      cases hnext
  | head hnext _ ih =>
    cases h with
    | refl => exact Nat.not_lt_zero _ hlt
    | head hnext' hrest =>
      rw [hnext] at hnext'
      cases hnext'
      exact ih hrest (Nat.lt_of_succ_lt_succ hlt) hstops hturn

end Spends

theorem StopsWithin.run_eq {budget : Nat} {c : Context} {w : σ} {e : SliceEnd σ}
    (h : StopsWithin registry r breakpoints now budget c w e) :
    run registry r breakpoints now budget c w = e := by
  obtain ⟨hlt, hspends, hstops⟩ := h
  obtain ⟨n, rfl⟩ := Nat.exists_eq_add_of_lt hlt
  rw [Nat.add_assoc, hspends.run_add, run, turn_eq_stop_iff.2 hstops]

theorem StopsWithin.mono {budget budget' : Nat} {c : Context} {w : σ} {e : SliceEnd σ}
    (h : StopsWithin registry r breakpoints now budget c w e) (hle : budget ≤ budget') :
    StopsWithin registry r breakpoints now budget' c w e := by
  obtain ⟨hlt, hspends, hstops⟩ := h
  exact ⟨Nat.lt_of_lt_of_le hlt hle, hspends, hstops⟩

/-- More budget does not help a slice that stops. -/
theorem StopsWithin.dispatches_add {budget : Nat} {c : Context} {w : σ} {e : SliceEnd σ}
    (h : StopsWithin registry r breakpoints now budget c w e) (n : Nat) :
    dispatches registry r breakpoints now (budget + n) c w =
      dispatches registry r breakpoints now budget c w := by
  obtain @⟨k, c', w', hlt, hspends, hstops⟩ := h
  obtain ⟨rest, rfl⟩ := Nat.exists_eq_add_of_lt hlt
  have hlast : dispatches registry r breakpoints now (rest + 1 + n) c' w' =
      dispatches registry r breakpoints now (rest + 1) c' w' := by
    rw [Nat.add_right_comm, dispatches, dispatches, turn_eq_stop_iff.2 hstops]
  have hfirst := hspends.dispatches_add (rest + 1)
  rw [Nat.add_assoc k, Nat.add_assoc k, hspends.dispatches_add, hlast, ← hfirst]

theorem spends_or_stopsWithin (registry : Registry σ) (r : Routine) (breakpoints : List NodeId)
    (now : Float) (budget : Nat) (c : Context) (w : σ) :
    (∃ c' w', Spends registry r breakpoints now budget c w c' w') ∨
      ∃ e, StopsWithin registry r breakpoints now budget c w e := by
  induction budget generalizing c w with
  | zero => exact .inl ⟨c, w, .refl⟩
  | succ budget ih =>
    cases hturn : turn registry r breakpoints now c w with
    | stop e => exact .inr ⟨e, Nat.succ_pos budget, .refl, turn_eq_stop_iff.1 hturn⟩
    | next c₁ w₁ =>
      rcases ih c₁ w₁ with ⟨c', w', hspends⟩ | ⟨e, hlt, hspends, hstops⟩
      · exact .inl ⟨c', w', .head hturn hspends⟩
      · exact .inr ⟨e, Nat.succ_lt_succ hlt, .head hturn hspends, hstops⟩

/-! ## Chains of dispatches -/

/-- From one thread to another by dispatches, each of the instruction that the thread has come to.
Between two of them the thread can only be parked. -/
inductive Linked (registry : Registry σ) (r : Routine) : Context → List Dispatch → Context → Prop
  | nil : c.unparked = c'.unparked → Linked registry r c [] c'
  | cons {d : Dispatch} {now : Float} : c.unparked = d.before.unparked →
      fetch? r d.before = some d.instruction →
      d.after = (execute registry d.instruction.action now (advance d.before d.instruction)
        w).ending.context →
      Linked registry r d.after ds c' → Linked registry r c (d :: ds) c'

namespace Linked

theorem of_unparked (h : Linked registry r c ds c') (hc : c₀.unparked = c.unparked) :
    Linked registry r c₀ ds c' := by
  cases h with
  | nil hsame => exact .nil (hc.trans hsame)
  | cons hbefore hfetch hafter hrest => exact .cons (hc.trans hbefore) hfetch hafter hrest

theorem append (h : Linked registry r c ds c') (h' : Linked registry r c' ds' c'') :
    Linked registry r c (ds ++ ds') c'' := by
  induction h with
  | nil hsame => exact h'.of_unparked hsame
  | cons hbefore hfetch hafter _ ih => exact .cons hbefore hfetch hafter (ih h')

end Linked

theorem exists_due_of_turn {c c' : Context} {w w' : σ}
    (h : turn registry r breakpoints now c w = .next c' w') :
    ∃ i, due? r breakpoints c = some i := by
  rcases turn_breakpoints registry r breakpoints now c w with ⟨hturn, hdue⟩ | ⟨node, -, -, hturn⟩
  · rw [hdue]
    exact exists_due_of_next (hturn.symm.trans h)
  · rw [h] at hturn
    cases hturn

/-- A turn that executes nothing leaves the thread where it is. -/
theorem Stops.unparked_eq {c : Context} {w : σ} {e : SliceEnd σ}
    (h : Stops registry r breakpoints now c w e) (hdue : due? r breakpoints c = none) :
    c.unparked = e.context.unparked := by
  cases h with
  | halted | breakpoint => rfl
  | yielded hsome | called hsome =>
    rw [hdue] at hsome
    cases hsome

/-- The dispatches of a slice lead from the thread as it was to the thread as it is left. -/
theorem linked_dispatches (budget : Nat) (c : Context) (w : σ) :
    Linked registry r c (dispatches registry r breakpoints now budget c w)
      (run registry r breakpoints now budget c w).context := by
  induction budget generalizing c w with
  | zero => exact .nil rfl
  | succ budget ih =>
    cases hdue : due? r breakpoints c with
    | none =>
      cases hturn : turn registry r breakpoints now c w with
      | stop e =>
        simp only [dispatches, run, hdue, hturn]
        exact .nil ((turn_eq_stop_iff.1 hturn).unparked_eq hdue)
      | next c₁ w₁ =>
        obtain ⟨i, hi⟩ := exists_due_of_turn hturn
        rw [hdue] at hi
        cases hi
    | some i =>
      have hfetch := (due?_eq_some_iff.1 hdue).1
      have hafter : (turn registry r breakpoints now c w).ending.context =
          (execute registry i.action now (advance c i) w).ending.context := by
        rw [turn_of_due hdue]
      cases hturn : turn registry r breakpoints now c w with
      | stop e =>
        rw [hturn] at hafter
        simp only [dispatches, run, hdue, hturn]
        exact .cons rfl hfetch hafter (.nil rfl)
      | next c₁ w₁ =>
        rw [hturn] at hafter
        simp only [dispatches, run, hdue, hturn]
        exact .cons rfl hfetch hafter (ih c₁ w₁)

/-! ## Calls -/

/-- The dispatches of the slice that a call asks for. -/
def answerDispatches (m : Interpreter σ) (routine : String) (c : Context) (call : SliceCall σ) :
    List Dispatch :=
  match m.program.routine? routine with
  | none => []
  | some r => dispatches m.registry r call.breakpoints call.now call.budget c call.world

/-- The dispatches of a sequence of slices. -/
def dispatchesAfter (m : Interpreter σ) (routine : String) (c : Context) :
    List (SliceCall σ) → List Dispatch
  | [] => []
  | call :: calls =>
    m.answerDispatches routine c call ++
      m.dispatchesAfter routine (m.answer routine c call).context calls

/-- The slice that a call asks for ends because its budget is spent. -/
def SpendsBudget (m : Interpreter σ) (routine : String) (c : Context) (call : SliceCall σ)
    (c' : Context) (w' : σ) : Prop :=
  ∃ r, m.program.routine? routine = some r ∧
    Spends m.registry r call.breakpoints call.now call.budget c call.world c' w'

/-- The slice that a call asks for ends before its budget is spent; without a routine at once. -/
inductive StopsEarly (m : Interpreter σ) (routine : String) (c : Context) (call : SliceCall σ) :
    SliceEnd σ → Prop
  | missing : m.program.routine? routine = none →
      StopsEarly m routine c call ⟨.halted, c, call.world⟩
  | within {r : Routine} : m.program.routine? routine = some r →
      StopsWithin m.registry r call.breakpoints call.now call.budget c call.world e →
      StopsEarly m routine c call e

variable {m : Interpreter σ} {routine : String} {c : Context} {call : SliceCall σ}

theorem answerDispatches_eq (hr : m.program.routine? routine = some r) (c : Context)
    (call : SliceCall σ) :
    m.answerDispatches routine c call =
      dispatches m.registry r call.breakpoints call.now call.budget c call.world := by
  simp only [answerDispatches, hr]

theorem StopsEarly.answer_eq {e : SliceEnd σ} (h : m.StopsEarly routine c call e) :
    m.answer routine c call = e := by
  cases h with
  | missing hr => simp only [answer, slice, hr]
  | within hr hstops => rw [answer_eq_run hr, hstops.run_eq]

theorem StopsEarly.add {e : SliceEnd σ} (h : m.StopsEarly routine c call e) (n : Nat) :
    m.StopsEarly routine c { call with budget := call.budget + n } e := by
  cases h with
  | missing hr => exact .missing hr
  | within hr hstops => exact .within hr (hstops.mono (Nat.le_add_right _ n))

theorem StopsEarly.answerDispatches_add {e : SliceEnd σ} (h : m.StopsEarly routine c call e)
    (n : Nat) :
    m.answerDispatches routine c { call with budget := call.budget + n } =
      m.answerDispatches routine c call := by
  cases h with
  | missing hr => simp only [answerDispatches, hr]
  | within hr hstops =>
    rw [answerDispatches_eq hr, answerDispatches_eq hr]
    exact hstops.dispatches_add n

theorem spendsBudget_iff (m : Interpreter σ) (routine : String) (c : Context)
    (call : SliceCall σ) :
    (∃ c' w', m.SpendsBudget routine c call c' w') ↔ ¬ ∃ e, m.StopsEarly routine c call e := by
  constructor
  · rintro ⟨c', w', r, hr, hspends⟩ ⟨e, hstops⟩
    cases hstops with
    | missing hnone =>
      rw [hr] at hnone
      cases hnone
    | within hr' hstops =>
      rw [hr] at hr'
      cases hr'
      exact hspends.not_stopsWithin hstops
  · intro hnone
    cases hr : m.program.routine? routine with
    | none => exact absurd ⟨_, .missing hr⟩ hnone
    | some r =>
      rcases spends_or_stopsWithin m.registry r call.breakpoints call.now call.budget c call.world
        with ⟨c', w', hspends⟩ | ⟨e, hstops⟩
      · exact ⟨c', w', r, hr, hspends⟩
      · exact absurd ⟨e, .within hr hstops⟩ hnone

/-- **However a run is cut into slices, its dispatches are linked.** -/
theorem linked_dispatchesAfter (hr : m.program.routine? routine = some r) (c : Context)
    (calls : List (SliceCall σ)) :
    Linked m.registry r c (m.dispatchesAfter routine c calls)
      (m.contextAfter routine c calls) := by
  induction calls generalizing c with
  | nil => exact .nil rfl
  | cons call calls ih =>
    have hfirst : Linked m.registry r c (m.answerDispatches routine c call)
        (m.answer routine c call).context := by
      rw [answerDispatches_eq hr, answer_eq_run hr]
      exact linked_dispatches call.budget c call.world
    exact hfirst.append (ih _)

/-- **Slices compose.** A slice that stops early does the same with more budget. If its budget is
spent, the slice with more budget is that slice and then one with the rest of the budget. So nothing
is executed again or left out between slices, whatever their budgets, times and breakpoints are:
each dispatch is of the instruction to which the one before it led. -/
theorem slices_compose (m : Interpreter σ) (routine : String) (c : Context) (call : SliceCall σ)
    (n : Nat) :
    let longer : SliceCall σ := { call with budget := call.budget + n }
    (∀ e, m.StopsEarly routine c call e →
      m.answer routine c call = e ∧ m.answer routine c longer = e ∧
        m.answerDispatches routine c longer = m.answerDispatches routine c call) ∧
    (∀ c' w', m.SpendsBudget routine c call c' w' →
      let rest : SliceCall σ := ⟨call.breakpoints, n, call.now, w'⟩
      m.answer routine c call = ⟨.ready, c', w'⟩ ∧
        m.answer routine c longer = m.answer routine c' rest ∧
        m.answerDispatches routine c longer =
          m.answerDispatches routine c call ++ m.answerDispatches routine c' rest) ∧
    ((∃ c' w', m.SpendsBudget routine c call c' w') ↔ ¬ ∃ e, m.StopsEarly routine c call e) ∧
    ∀ r, m.program.routine? routine = some r → ∀ calls : List (SliceCall σ),
      Linked m.registry r c (m.dispatchesAfter routine c calls)
        (m.contextAfter routine c calls) := by
  intro longer
  refine ⟨fun e hstops => ?_, fun c' w' hspends => ?_, m.spendsBudget_iff routine c call, ?_⟩
  · exact ⟨hstops.answer_eq, (hstops.add n).answer_eq, hstops.answerDispatches_add n⟩
  · intro rest
    obtain ⟨r, hr, hspends⟩ := hspends
    simp only [answer_eq_run hr, answerDispatches_eq hr]
    refine ⟨?_, hspends.run_add n, hspends.dispatches_add n⟩
    exact hspends.run_add 0
  · intro r hr calls
    exact linked_dispatchesAfter hr c calls

/-- The slice that plays the note stops there, and the one behind it spends its budget. -/
theorem slices_compose_playThrice :
    let c : Context := .start "main" "again"
    let note : SliceCall Sink := ⟨[], 1, 0, .new⟩
    let played := playThrice.answer "main" c note
    let count : SliceCall Sink := ⟨[], 1, 500, played.world⟩
    playThrice.StopsEarly "main" c note played ∧ played.status = .sleeping 0 ∧
      playThrice.answer "main" c { note with budget := 3 } = played ∧
      ∃ c' w', playThrice.SpendsBudget "main" played.context count c' w' ∧
        playThrice.answer "main" played.context { count with budget := 2 } =
          playThrice.answer "main" c' ⟨[], 1, 500, w'⟩ := by
  intro c note played count
  have hstops : playThrice.StopsEarly "main" c note played :=
    .within rfl ⟨Nat.zero_lt_one, .refl, .called rfl rfl rfl rfl⟩
  have hspends : playThrice.SpendsBudget "main" played.context count _ _ :=
    ⟨_, rfl, .head rfl .refl⟩
  obtain ⟨hsame, -⟩ := slices_compose playThrice "main" c note 2
  obtain ⟨-, hcontinues, -⟩ := slices_compose playThrice "main" played.context count 1
  exact ⟨hstops, by decide +kernel, (hsame _ hstops).2.1, _, _, hspends,
    (hcontinues _ _ hspends).2.1⟩

end Interpreter

end TuneBlocks
