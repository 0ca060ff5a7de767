import TuneBlocks.Proofs.Breakpoints
import TuneBlocks.Proofs.Pulses

/-!
# Single steps

A single step is one turn of the thread in front (`Interpreter.TakesTurn`). The turn executes one
instruction, or none where the thread has come to its end or to a breakpoint. What a step does to
the queues and the world follows from the turn alone (`Scheduler.StepsThread`), so that no other
thread has a part in it. A thread that was stopped at a breakpoint, by a step or by a pulse, is in
front and executes the instruction of the breakpoint in the next step, whatever the breakpoints are
by then.
-/

namespace TuneBlocks

variable {σ : Type}

namespace Interpreter

/-! ## One turn -/

/-- The instruction that a thread comes to next. -/
def next? (m : Interpreter σ) (t : Thread) : Option Instruction :=
  (m.program.routine? t.routine).bind fun r => fetch? r t.context

/-- One turn of a thread, with the instructions it executes and how it ends. -/
inductive TakesTurn (m : Interpreter σ) (v : Machine σ) (now : Float) (t : Thread) :
    List Instruction → SliceEnd σ → Prop
  /-- There is no instruction. -/
  | halts : m.next? t = none → TakesTurn m v now t [] ⟨.halted, t.context, v.world⟩
  /-- The instruction has a breakpoint, at which the thread is not parked yet. -/
  | stops : m.next? t = some i → i.source = some node → node ∈ v.breakpoints →
      t.context.parked ≠ some node →
      TakesTurn m v now t [] ⟨.breakpoint node, { t.context with parked := some node }, v.world⟩
  /-- The instruction has no breakpoint, or the thread is parked there. -/
  | executes : m.next? t = some i →
      (∀ node ∈ v.breakpoints, i.source = some node → t.context.parked = some node) →
      e = (execute m.registry i.action now (advance t.context i) v.world).ending →
      (∀ node, e.status ≠ .breakpoint node) → TakesTurn m v now t [i] e

theorem run_one (registry : Registry σ) (r : Routine) (breakpoints : List NodeId) (now : Float)
    (c : Context) (w : σ) :
    run registry r breakpoints now 1 c w = (turn registry r breakpoints now c w).ending := by
  rw [run]
  cases turn registry r breakpoints now c w with
  | stop result => rfl
  | next c w => rfl

theorem executed_one (registry : Registry σ) (r : Routine) (breakpoints : List NodeId)
    (now : Float) (c : Context) (w : σ) :
    executed registry r breakpoints now 1 c w = (due? r breakpoints c).toList := by
  rw [executed]
  cases turn registry r breakpoints now c w with
  | stop result => exact List.append_nil _
  | next c w => exact List.append_nil _

theorem ending_ne_breakpoint {t : Turn σ} {node : NodeId}
    (h : Meets (fun _ => True) (fun e => e.status ≠ .breakpoint node) t) :
    t.ending.status ≠ .breakpoint node := by
  cases t with
  | stop result => exact h
  | next c w => exact Status.noConfusion

/-- **A slice of one instruction is one turn.** -/
theorem takesTurn_slice {m : Interpreter σ} (hregistry : m.registry.NeverStops) (v : Machine σ)
    (now : Float) (t : Thread) :
    m.TakesTurn v now t
      (m.answerInstructions t.routine t.context ⟨v.breakpoints, 1, now, v.world⟩)
      (m.slice v.breakpoints t.routine t.context 1 now v.world) := by
  unfold answerInstructions slice
  cases hr : m.program.routine? t.routine with
  | none =>
    apply TakesTurn.halts
    rw [next?, hr, Option.bind_none]
  | some r =>
    have hnext : m.next? t = fetch? r t.context := by rw [next?, hr, Option.bind_some]
    simp only [run_one, executed_one, due?, turn]
    cases hi : fetch? r t.context with
    | none =>
      apply TakesTurn.halts
      rw [hnext, hi]
    | some i =>
      rw [hi] at hnext
      cases hstop : stopsAt? v.breakpoints t.context i with
      | some node =>
        simp only [Option.filter_some, hstop, Option.isNone_some]
        obtain ⟨hsource, hmem, hparked⟩ := stopsAt?_eq_some_iff.1 hstop
        exact .stops hnext hsource hmem hparked
      | none =>
        simp only [Option.filter_some, hstop, Option.isNone_none]
        apply TakesTurn.executes hnext _ rfl
        · intro node
          apply ending_ne_breakpoint
          exact execute_ne_breakpoint hregistry i.action now (advance t.context i) v.world node
        · intro node hmem hsource
          refine Classical.byContradiction fun hparked => ?_
          rw [stopsAt?_eq_some_iff.2 ⟨hsource, hmem, hparked⟩] at hstop
          cases hstop

theorem TakesTurn.parked_of_hit {m : Interpreter σ} (h : m.TakesTurn v now t is e)
    (hstatus : e.status = .breakpoint node) :
    ∃ r i, m.program.routine? t.routine = some r ∧ m.next? t = some i ∧
      ParkedAt r e.context i node := by
  cases h with
  | halts => cases hstatus
  | stops hnext hsource =>
    cases hstatus
    obtain ⟨r, hr, hfetch⟩ := Option.bind_eq_some_iff.1 hnext
    exact ⟨r, _, hr, hnext, hfetch, hsource, rfl⟩
  | executes _ _ _ hrunning => exact absurd hstatus (hrunning node)

end Interpreter

namespace Scheduler

/-! ## One step -/

/-- Puts a thread where the end of its slice says, and pauses. -/
def settled (s : Scheduler σ) (t : Thread) (rest : List Thread) : Status → Scheduler σ
  | .ready => { s with ready := rest ++ [t], asleep := s.waitingAt s.clock, paused := true }
  | .sleeping wake =>
    { s with ready := rest, asleep := s.waitingAt s.clock ++ [⟨t, wake⟩], paused := true }
  | .halted => { s with ready := rest, asleep := s.waitingAt s.clock, paused := true }
  | .breakpoint _ => { s with ready := t :: rest, asleep := s.waitingAt s.clock, paused := true }

/-- Tells of a breakpoint, if a slice stopped there. -/
def told (s : Scheduler σ) (w : σ) : Status → σ
  | .breakpoint node => s.tell node w
  | _ => w

theorem step_of_nil {s : Scheduler σ} (h : s.queueAt s.clock = []) (ex : Executor σ) (w : σ) :
    s.step ex w = ({ s with ready := [], asleep := s.waitingAt s.clock, paused := true }, w) := by
  have hwake : s.resume.wake =
      { s with ready := [], asleep := s.waitingAt s.clock, paused := false } := by
    rw [wake_eq, ← h]
    rfl
  simp only [step, runSlices, hwake]
  rfl

theorem step_of_cons {s : Scheduler σ} (h : s.queueAt s.clock = t :: rest) (ex : Executor σ)
    (w : σ) :
    let result := ex.slice t.id t.routine t.context 1 s.clock w
    s.step ex w = (s.settled { t with context := result.context } rest result.status,
      s.told result.world result.status) := by
  intro result
  have hwake : s.resume.wake =
      { s with ready := t :: rest, asleep := s.waitingAt s.clock, paused := false } := by
    rw [wake_eq, ← h]
    rfl
  have hresult : ex.slice t.id t.routine t.context 1 s.clock w = result := rfl
  simp only [step, runSlices, hwake, hresult]
  cases result.status <;> rfl

theorem clock_step (ex : Executor σ) (s : Scheduler σ) (w : σ) :
    (s.step ex w).1.clock = s.clock :=
  (runSlices_keeps ex 1 1 s.resume.wake w).1

/-- A step with the thread `t` in front and `rest` behind it is a turn of `t`, which executes `is`
and ends as `e`. All that changes is the place and the context of `t` and the world, and the
scheduler is paused. -/
structure StepsThread (s : Scheduler (Machine σ)) (m : Interpreter σ) (v : Machine σ) (t : Thread)
    (rest : List Thread) (is : List Instruction) (e : SliceEnd σ) : Prop where
  queue : s.queueAt s.clock = t :: rest
  slice : m.slice v.breakpoints t.routine t.context 1 s.clock v.world = e
  executed : m.answerInstructions t.routine t.context ⟨v.breakpoints, 1, s.clock, v.world⟩ = is
  turn : m.TakesTurn v s.clock t is e
  result : s.step m.executor v =
    (s.settled { t with context := e.context } rest e.status,
      s.told { v with world := e.world } e.status)

variable {m : Interpreter σ} {s : Scheduler (Machine σ)} {t : Thread} {rest : List Thread}

theorem stepsThread_of_cons (hregistry : m.registry.NeverStops)
    (hqueue : s.queueAt s.clock = t :: rest) (v : Machine σ) :
    s.StepsThread m v t rest
      (m.answerInstructions t.routine t.context ⟨v.breakpoints, 1, s.clock, v.world⟩)
      (m.slice v.breakpoints t.routine t.context 1 s.clock v.world) where
  queue := hqueue
  slice := rfl
  executed := rfl
  turn := Interpreter.takesTurn_slice hregistry v s.clock t
  result := step_of_cons hqueue m.executor v

/-- A thread in front that is parked gets past its breakpoint. -/
theorem stepsThread_of_parked (hregistry : m.registry.NeverStops)
    (hqueue : s.queueAt s.clock = t :: rest) (hr : m.program.routine? t.routine = some r)
    (hparked : Interpreter.ParkedAt r t.context i node) (v : Machine σ) :
    ∃ e, s.StepsThread m v t rest [i] e := by
  have hstep := stepsThread_of_cons hregistry hqueue v
  rw [hparked.answerInstructions hr] at hstep
  exact ⟨_, hstep⟩

theorem next?_of_parked (hr : m.program.routine? t.routine = some r)
    (hparked : Interpreter.ParkedAt r t.context i node) : m.next? t = some i := by
  rw [Interpreter.next?, hr]
  exact hparked.fetch

/-- A thread that a step stopped is still in front. -/
theorem StepsThread.queue_of_hit (h : s.StepsThread m v t rest is e)
    (hstatus : e.status = .breakpoint node) :
    (s.step m.executor v).1.queueAt (s.step m.executor v).1.clock =
      { t with context := e.context } :: rest := by
  rw [h.result, hstatus]
  simp [settled, queueAt, waitingAt, List.filter_filter]

/-- A pulse that comes to a breakpoint leaves in front a thread that is parked there. -/
theorem exists_parked_of_pulse (hregistry : m.registry.NeverStops) {delta : Float} {budget : Nat}
    {v : Machine σ} (hrunning : s.paused = false)
    (hpaused : (s.pulse m.executor delta budget v).1.paused = true) :
    ∃ t rest r i node, (s.pulse m.executor delta budget v).1.ready = t :: rest ∧
      m.program.routine? t.routine = some r ∧ Interpreter.ParkedAt r t.context i node := by
  have hgate : ¬ (s.paused = true ∧ 1 < budget) := by
    rw [hrunning]
    exact fun h => Bool.false_ne_true h.1
  cases hfirst : (m.executor.callAll budget (s.clock + delta)
      (s.queueAt (s.clock + delta)) v).1.findIdx? (·.2.isBreakpoint) with
  | none =>
    rw [pulse_of_no_hit hgate rfl rfl hfirst, hrunning] at hpaused
    cases hpaused
  | some k =>
    obtain ⟨t, node, hhit⟩ := exists_hit hfirst
    obtain ⟨u, w, rfl, hstatus⟩ :=
      m.executor.exists_of_mem_callAll _ _ (List.mem_of_getElem? hhit)
    obtain ⟨r, i, hr, hparked⟩ := Interpreter.parked_of_hit hregistry hstatus.symm
    rw [pulse_of_hit hgate rfl rfl hfirst hhit]
    exact ⟨_, _, r, i, node, rfl, hr, hparked⟩

/-- **A step is one turn of one thread.** It takes no time and leaves the scheduler paused. Of the
threads that are ready and those that are due, only the first has a turn, and nothing else changes.
Where a thread was stopped at a breakpoint, by a step or by a pulse, the next step executes the
instruction that it was stopped at and no other. -/
theorem step_exact (m : Interpreter σ) (hregistry : m.registry.NeverStops)
    (s : Scheduler (Machine σ)) (v : Machine σ) :
    let after := s.step m.executor v
    after.1.clock = s.clock ∧ after.1.paused = true ∧
    (s.queueAt s.clock = [] →
      after = ({ s with ready := [], asleep := s.waitingAt s.clock, paused := true }, v)) ∧
    (∀ t rest, s.queueAt s.clock = t :: rest → ∃ is e, s.StepsThread m v t rest is e ∧
      ∀ node, e.status = .breakpoint node → ∃ i e', m.next? t = some i ∧ i.source = some node ∧
        after.1.StepsThread m after.2 { t with context := e.context } rest [i] e') ∧
    ∀ delta budget,
      let stopped := s.pulse m.executor delta budget v
      s.paused = false → stopped.1.paused = true →
        ∃ t rest i e node, m.next? t = some i ∧ i.source = some node ∧
          t.context.parked = some node ∧ stopped.1.StepsThread m stopped.2 t rest [i] e := by
  intro after
  refine ⟨clock_step m.executor s v, rfl, fun hqueue => step_of_nil hqueue m.executor v, ?_, ?_⟩
  · intro t rest hqueue
    have hstep := stepsThread_of_cons hregistry hqueue v
    refine ⟨_, _, hstep, fun node hstatus => ?_⟩
    obtain ⟨r, i, hr, hnext, hparked⟩ := hstep.turn.parked_of_hit hstatus
    obtain ⟨e', hagain⟩ :=
      stepsThread_of_parked hregistry (hstep.queue_of_hit hstatus) hr hparked after.2
    exact ⟨i, e', hnext, hparked.source, hagain⟩
  · intro delta budget stopped hrunning hpaused
    obtain ⟨t, rest, r, i, node, hready, hr, hparked⟩ :=
      exists_parked_of_pulse hregistry hrunning hpaused
    have hqueue : stopped.1.queueAt stopped.1.clock =
        t :: (rest ++ (stopped.1.asleep.filter (·.wake ≤ stopped.1.clock)).map Sleeper.thread) := by
      rw [queueAt, hready, List.cons_append]
    obtain ⟨e, hstep⟩ := stepsThread_of_parked hregistry hqueue hr hparked stopped.2
    exact ⟨t, _, i, e, node, next?_of_parked hr hparked, hparked.source, hparked.parked, hstep⟩

theorem step_exact_playThrice :
    let m := Interpreter.playThrice
    let thread (id : String) : Thread := ⟨id, "main", .start id "again"⟩
    let s : Scheduler (Machine Sink) :=
      ⟨[thread "a", thread "b"], [⟨thread "c", 0⟩, ⟨thread "d", 500⟩], 0, false, none⟩
    let v : Machine Sink := ⟨["note"], .new⟩
    m.registry.NeverStops ∧ ∃ is e i e',
      s.StepsThread m v (thread "a") [thread "b", thread "c"] is e ∧
      e.status = .breakpoint "note" ∧ i.source = some "note" ∧
      (s.step m.executor v).1.StepsThread m (s.step m.executor v).2
        { thread "a" with context := e.context } [thread "b", thread "c"] [i] e' := by
  intro m thread s v
  have hregistry := (Registry.ignoresParking_standard Sink).neverStops
  obtain ⟨-, -, -, hsteps, -⟩ := step_exact m hregistry s v
  obtain ⟨is, e, hstep, hagain⟩ := hsteps (thread "a") [thread "b", thread "c"] (by decide)
  have hstatus : e.status = .breakpoint "note" := by
    rw [← hstep.slice]
    decide
  obtain ⟨i, e', -, hsource, hagain⟩ := hagain "note" hstatus
  exact ⟨hregistry, is, e, i, e', hstep, hstatus, hsource, hagain⟩

end Scheduler

end TuneBlocks
