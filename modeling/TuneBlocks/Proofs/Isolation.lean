import TuneBlocks.Proofs.Breakpoints
import TuneBlocks.Proofs.Mirrors
import TuneBlocks.Proofs.Recording

/-!
# Threads do not disturb each other

Threads share a scheduler and a world. Where the handlers of the registry do not look at the world,
and there are no breakpoints, a thread fares in company as it does alone: it gets the same slices at
the same times, they end in the same way and leave it in the same state (`threads_isolated`).

The argument is about any executor whose slices do not depend on its state (`Executor.Steady`):
leaving out all threads but one commutes with pulses (`Apart.pulse`). It is made for rosters, whose
logs have the slices; `Scheduler.pulses_recording` says that an executor that keeps a record of its
slices runs the same pulses and records the log.
-/

namespace TuneBlocks

/-! ## Records of slices -/

/-- A slice that an executor was asked for, and how it ended. -/
structure SliceRecord where
  thread : String
  budget : Nat
  now : Float
  status : Status
deriving DecidableEq

def Grant.record {σ : Type} (g : Grant σ) : SliceRecord := ⟨g.thread.id, g.budget, g.now, g.status⟩

/-- Puts threads where they belong after their slices. -/
def Scheduler.settle {σ : Type} (s : Scheduler σ) (done : List (Thread × Status)) : Scheduler σ :=
  { s with ready := Pass.readyOf done, asleep := s.asleep ++ Pass.sleepersOf done }

namespace Executor

variable {σ : Type}

/-- The same executor, which keeps a record of all slices. -/
def recording (ex : Executor σ) : Executor (σ × List SliceRecord) :=
  ex.entering fun t budget now result => ⟨t.id, budget, now, result.status⟩

/-- In the states `I` slices end alike, and at no breakpoint. -/
structure Steady (ex : Executor σ) (I : σ → Prop) : Prop where
  inv : I w → I (ex.slice name routine c budget now w).world
  status : I w → I w' →
    (ex.slice name routine c budget now w).status = (ex.slice name routine c budget now w').status
  context : I w → I w' →
    (ex.slice name routine c budget now w).context = (ex.slice name routine c budget now w').context
  running : I w → (ex.slice name routine c budget now w).status ≠ .breakpoint node

/-- A thread after a slice, with the end of the slice. -/
def outcome (ex : Executor σ) (budget : Nat) (now : Float) (w : σ) (t : Thread) :
    Thread × Status :=
  let result := ex.slice t.id t.routine t.context budget now w
  ({ t with context := result.context }, result.status)

namespace Steady

variable {ex : Executor σ} {I : σ → Prop} {w₀ w : σ} (h : ex.Steady I) (hw₀ : I w₀) (hw : I w)
  (budget : Nat) (now : Float)
include h hw

theorem not_hit (m : Nat × Thread) : (ex.grant budget now w m).status.isBreakpoint = false := by
  cases hstatus : (ex.grant budget now w m).status with
  | breakpoint node => exact absurd hstatus (h.running hw)
  | _ => rfl

theorem inv_grant (m : Nat × Thread) : I (ex.grant budget now w m).result.world := h.inv hw

include hw₀

/-- A slice does to its thread what it would do in the state `w₀`. -/
theorem outcome_grant (m : Nat × Thread) :
    ((ex.grant budget now w m).after, (ex.grant budget now w m).status) =
      ex.outcome budget now w₀ m.2 :=
  Prod.ext (congrArg (fun context => { m.2 with context }) (h.context hw hw₀)) (h.status hw hw₀)

/-- In a pass every thread has its slice, whatever the state is by then. -/
theorem pass (queue : List Thread) :
    ∃ v, I v ∧ ex.pass budget now queue w =
      ⟨queue.map (ex.outcome budget now w₀), none, [], v⟩ := by
  induction queue generalizing w with
  | nil => exact ⟨w, hw, rfl⟩
  | cons t queue ih =>
    have hcons := pass_cons (h.not_hit hw budget now (0, t)) queue
    obtain ⟨v, hv, hpass⟩ := ih (h.inv_grant hw budget now (0, t))
    rw [h.outcome_grant hw₀ hw, hpass] at hcons
    exact ⟨v, hv, hcons⟩

theorem records (queue : List (Nat × Thread)) :
    (ex.grants budget now queue w).map Grant.record =
      ((queue.map Prod.snd).map (ex.outcome budget now w₀)).map
        fun (t, status) => ⟨t.id, budget, now, status⟩ := by
  induction queue generalizing w with
  | nil => rfl
  | cons m queue ih =>
    rw [grants_cons (h.not_hit hw budget now m), List.map_cons, ih (h.inv_grant hw budget now m),
      List.map_cons, List.map_cons, List.map_cons, ← h.outcome_grant hw₀ hw]
    rfl

end Steady

end Executor

/-- Slices are recorded, and breakpoints are not. -/
def Recording.slices {σ : Type} (ex : Executor σ) : Recording ex ex.recording SliceRecord :=
  .entering _ (fun _ => []) ex

/-! ## Leaving threads out -/

/-- Keeping some results is as good as keeping what they come from. -/
theorem filter_filterMap_comm {f : α → Option β} {p : β → Bool} {q : α → Bool}
    (h : ∀ a b, f a = some b → p b = q a) (l : List α) :
    (l.filterMap f).filter p = (l.filter q).filterMap f := by
  induction l with
  | nil => rfl
  | cons a l ih =>
    cases hf : f a with
    | none => cases hq : q a <;> simp [hf, hq, ih]
    | some b => cases hq : q a <;> simp [hf, hq, ih, h a b hf]

namespace Scheduler

variable {σ : Type}

/-- The scheduler without all threads but one. -/
def only (s : Scheduler σ) (name : String) : Scheduler σ :=
  { s with
    ready := s.ready.filter (·.id == name)
    asleep := s.asleep.filter (·.thread.id == name) }

theorem only_tick (s : Scheduler σ) (delta : Float) (name : String) :
    (s.tick delta).only name = (s.only name).tick delta := by
  simp only [only, tick, wake, List.partition_eq_filter_filter, List.filter_append,
    List.filter_map, List.filter_filter, Function.comp_def, Bool.and_comm]
  rfl

theorem only_settle (s : Scheduler σ) (done : List (Thread × Status)) (name : String) :
    (s.settle done).only name = (s.only name).settle (done.filter (·.1.id == name)) := by
  have hready : (Pass.readyOf done).filter (·.id == name) =
      Pass.readyOf (done.filter (·.1.id == name)) := by
    refine filter_filterMap_comm (fun (t, status) u h => ?_) done
    cases status <;> cases h
    rfl
  have hsleepers : (Pass.sleepersOf done).filter (·.thread.id == name) =
      Pass.sleepersOf (done.filter (·.1.id == name)) := by
    refine filter_filterMap_comm (fun (t, status) u h => ?_) done
    cases status <;> cases h
    rfl
  simp only [only, settle, List.filter_append, hready, hsleepers]

end Scheduler

/-! ## Pulses -/

def Operation.pulses {σ : Type} (ps : List (Float × Nat)) : List (Operation σ) :=
  ps.map fun (delta, budget) => .pulse delta budget

namespace Scheduler

variable {σ : Type}

/-- Pulses one after the other, each with what it adds to the clock and its budget. -/
def pulses (ex : Executor σ) (ps : List (Float × Nat)) (s : Scheduler σ) (w : σ) :
    Scheduler σ × σ :=
  ps.foldl (fun (s, w) (delta, budget) => s.pulse ex delta budget w) (s, w)

theorem pulses_eq (ex : Executor σ) (ps : List (Float × Nat)) (s : Scheduler σ) (w : σ) :
    s.pulses ex ps w = s.performAll ex w (Operation.pulses ps) := by
  induction ps generalizing s w with
  | nil => rfl
  | cons p ps ih => exact ih _ _

theorem pulses_roster (ex : Executor σ) (ps : List (Float × Nat)) (s : Scheduler σ) (w : σ) :
    let x := (Roster.of s w).performAll ex (Operation.pulses ps)
    s.pulses ex ps w = (x.scheduler, x.world) :=
  (pulses_eq ex ps s w).trans (Roster.performAll_eq ex (Roster.of s w) _).symm

/-- **Recording changes nothing about a run of pulses**, and what is recorded are the slices of the
log. -/
theorem pulses_recording (ex : Executor σ) (ps : List (Float × Nat)) (s : Scheduler σ) (w : σ)
    (before : List SliceRecord) :
    (s.mapTell (Recording.slices ex).tell).pulses ex.recording ps (w, before) =
      ((s.pulses ex ps w).1.mapTell (Recording.slices ex).tell, (s.pulses ex ps w).2,
        before ++ ((Roster.of s w).performAll ex (Operation.pulses ps)).log.map
          Grant.record) := by
  have hrecord := (Recording.slices ex).performAll_eq (fun _ => rfl) s w (Operation.pulses ps)
    before
  have hentries : (Recording.slices ex).ofSlice = fun g => [g.record] := rfl
  have hops : (Operation.pulses ps).map (Operation.mapTell (Recording.slices ex).tell) =
      Operation.pulses ps := List.map_map
  rw [hops, hentries, ← List.map_eq_flatMap] at hrecord
  rw [pulses_eq, pulses_eq]
  exact hrecord

/-- A pulse of a steady executor, in terms of what becomes of each thread. -/
theorem pulse_steady {ex : Executor σ} {I : σ → Prop} {w₀ w : σ} (hex : ex.Steady I) (hw₀ : I w₀)
    (hw : I w) (delta : Float) {budget : Nat} {s : Scheduler σ}
    (hrunning : ¬ (s.paused = true ∧ 1 < budget)) :
    ∃ v, I v ∧ s.pulse ex delta budget w = ((s.tick delta).settle
      ((s.tick delta).ready.map (ex.outcome budget (s.tick delta).clock w₀)), v) := by
  obtain ⟨v, hv, hpass⟩ := hex.pass hw₀ hw budget (s.tick delta).clock (s.tick delta).ready
  refine ⟨v, hv, ?_⟩
  rw [pulse_of_running hrunning, hpass]
  rfl

/-- A pulse without breakpoints does not pause. -/
theorem paused_pulse {ex : Executor σ} {I : σ → Prop} (hex : ex.Steady I) (delta : Float)
    (budget : Nat) (s : Scheduler σ) {w : σ} (hw : I w) :
    (s.pulse ex delta budget w).1.paused = s.paused := by
  by_cases hpaused : s.paused = true ∧ 1 < budget
  · rw [pulse_of_paused hpaused]
    rfl
  · obtain ⟨v, -, hpulse⟩ := pulse_steady hex hw hw delta hpaused
    rw [hpulse]
    rfl

end Scheduler

/-- What a pulse of a steady executor makes of a roster, and what it adds to the log. -/
theorem Roster.pulse_steady {σ : Type} {ex : Executor σ} {I : σ → Prop} {w₀ : σ} (hex : ex.Steady I)
    (hw₀ : I w₀) {x : Roster σ} (hx : I x.world) (hrunning : x.scheduler.paused = false)
    (delta : Float) (budget : Nat) :
    let s := x.scheduler.tick delta
    let done := s.ready.map (ex.outcome budget s.clock w₀)
    let y := x.perform ex (.pulse delta budget)
    I y.world ∧ y.scheduler = s.settle done ∧
      y.log.map Grant.record = x.log.map Grant.record ++
        done.map fun (t, status) => ⟨t.id, budget, s.clock, status⟩ := by
  intro s done y
  have hgate : ¬ (x.scheduler.paused = true ∧ 1 < budget) := by simp [hrunning]
  obtain ⟨v, hv, hpulse⟩ := Scheduler.pulse_steady hex hw₀ hx delta hgate
  obtain ⟨hscheduler, hworld⟩ :=
    Prod.mk.inj ((x.perform_eq ex (.pulse delta budget)).trans hpulse)
  refine ⟨hworld.symm ▸ hv, hscheduler, ?_⟩
  rw [log_perform, grants_pulse ex hgate, List.map_append, hex.records hw₀ hx, ready_eq]
  rfl

/-- Two runs of which the second has one thread of the first and no other. -/
structure Apart {σ : Type} (I : σ → Prop) (name : String) (x y : Roster σ) : Prop where
  inv : I x.world
  inv' : I y.world
  running : x.scheduler.paused = false
  scheduler : y.scheduler = x.scheduler.only name
  records : y.log.map Grant.record = (x.log.map Grant.record).filter (·.thread == name)

namespace Apart

variable {σ : Type} {I : σ → Prop} {name : String} {ex : Executor σ} {x y : Roster σ}

theorem pulse (hex : ex.Steady I) (h : Apart I name x y) (delta : Float) (budget : Nat) :
    Apart I name (x.perform ex (.pulse delta budget)) (y.perform ex (.pulse delta budget)) := by
  have hrunning' : y.scheduler.paused = false := by
    rw [h.scheduler]
    exact h.running
  obtain ⟨hinv, hscheduler, hrecords⟩ := Roster.pulse_steady hex h.inv h.inv h.running delta budget
  obtain ⟨hinv', hscheduler', hrecords'⟩ :=
    Roster.pulse_steady hex h.inv h.inv' hrunning' delta budget
  -- the slices of the thread do not depend on who else is there
  have hdone : ((x.scheduler.tick delta).only name).ready.map
        (ex.outcome budget (x.scheduler.tick delta).clock x.world) =
      ((x.scheduler.tick delta).ready.map
        (ex.outcome budget (x.scheduler.tick delta).clock x.world)).filter (·.1.id == name) := by
    rw [List.filter_map]
    rfl
  have hclock : ((x.scheduler.tick delta).only name).clock = (x.scheduler.tick delta).clock := rfl
  rw [h.scheduler, ← Scheduler.only_tick, hclock, hdone] at hscheduler' hrecords'
  refine ⟨hinv, hinv', ?_, ?_, ?_⟩
  · rw [hscheduler]
    exact h.running
  · rw [hscheduler', hscheduler, Scheduler.only_settle]
  · simp only [hrecords', hrecords, h.records, List.filter_append, List.filter_map]
    rfl

theorem pulses (hex : ex.Steady I) (h : Apart I name x y) (ps : List (Float × Nat)) :
    Apart I name (x.performAll ex (Operation.pulses ps))
      (y.performAll ex (Operation.pulses ps)) := by
  induction ps generalizing x y with
  | nil => exact h
  | cons p ps ih => exact ih (h.pulse hex p.1 p.2)

end Apart

/-! ## The interpreter -/

/-- The answers of the handlers do not depend on the world, and stop at no breakpoint. -/
structure Registry.Steady {σ : Type} (registry : Registry σ) : Prop where
  status : registry.handler? name = some handler → ∀ args now c w w',
    (handler args now c w).status = (handler args now c w').status
  context : registry.handler? name = some handler → ∀ args now c w w',
    (handler args now c w).context = (handler args now c w').context
  running : registry.handler? name = some handler → ∀ args now c w node,
    (handler args now c w).status ≠ some (.breakpoint node)

theorem Registry.steady_standard (σ : Type) [HasSink σ] : (Registry.standard σ).Steady where
  status h args now c w w' := by cases answers_of_handler? σ h <;> rfl
  context h args now c w w' := by cases answers_of_handler? σ h <;> rfl
  running h args now c w node := by
    cases answers_of_handler? σ h <;> intro hstatus <;> cases hstatus

theorem Registry.Steady.neverStops {σ : Type} {registry : Registry σ} (h : registry.Steady) :
    registry.NeverStops :=
  fun _ _ hhandler => h.running hhandler

/-- The answers are the same from any two worlds. -/
theorem Registry.Steady.mirrors {σ : Type} {registry : Registry σ} (h : registry.Steady) :
    registry.Mirrors (fun _ _ => True) registry := by
  intro name
  cases hhandler : registry.handler? name with
  | none => exact .none
  | some handler =>
    refine .some fun args now c w v _ => ?_
    simp only [Reply.turn, h.status hhandler args now c w v, h.context hhandler args now c w v]
    split
    · exact .stop ⟨rfl, rfl, trivial⟩
    · exact .next trivial

/-- Without breakpoints the slices of an interpreter do not depend on the world. -/
theorem Interpreter.executor_steady {σ : Type} {m : Interpreter σ} (hregistry : m.registry.Steady) :
    m.executor.Steady (·.breakpoints = []) := by
  have hmirrors := Interpreter.executor_mirrors (m := m) rfl hregistry.mirrors []
  have hgoes : ∀ {routine c node} (call : SliceCall σ), call.breakpoints = [] →
      (m.answer routine c call).status ≠ .breakpoint node :=
    fun call hcall => answer_ne_breakpoint hregistry.neverStops hcall _
  refine ⟨fun hw => hw, fun hw hw' => ?_, fun hw hw' => ?_, fun hw => ?_⟩
  · exact (hmirrors _ _ _ _ _ _ _ ⟨hw, hw', trivial⟩).status
  · exact (hmirrors _ _ _ _ _ _ _ ⟨hw, hw', trivial⟩).context
  · exact hgoes ⟨_, _, _, _⟩ hw

/-! ## Threads -/

/-- A thread to be scheduled. -/
structure Launch where
  id : String
  routine : String
  entry : Label
deriving DecidableEq

namespace Scheduler

variable {σ : Type}

/-- A scheduler with some threads. -/
def launch (ts : List Launch) : Scheduler σ :=
  ts.foldl (fun s t => s.schedule t.id t.routine t.entry) .new

theorem launch_eq (ts : List Launch) : (launch ts : Scheduler σ) =
    { (.new : Scheduler σ) with
      ready := ts.map fun t => ⟨t.id, t.routine, .start t.id t.entry⟩ } :=
  foldl_schedule Launch.id Launch.routine Launch.entry ts .new

theorem mapTell_launch {τ : Type} (f : (NodeId → σ → σ) → NodeId → τ → τ) (ts : List Launch) :
    (launch ts : Scheduler σ).mapTell f = launch ts := by
  rw [launch_eq, launch_eq]
  rfl

theorem filter_id_eq {ts : List Launch} (hids : (ts.map Launch.id).Nodup) {t : Launch}
    (ht : t ∈ ts) : ts.filter (·.id == t.id) = [t] := by
  induction ts with
  | nil => cases ht
  | cons u ts ih =>
    rw [List.map_cons, List.nodup_cons] at hids
    obtain ⟨hu, hids⟩ := hids
    rcases List.mem_cons.1 ht with rfl | ht
    · have hnone : ts.filter (·.id == t.id) = [] := by
        refine List.filter_eq_nil_iff.2 fun v hv heq => hu ?_
        rw [← beq_iff_eq.1 heq]
        exact List.mem_map_of_mem hv
      rw [List.filter_cons, hnone, beq_self_eq_true, if_pos rfl]
    · have hne : (u.id == t.id) = false := by
        refine beq_eq_false_iff_ne.2 fun heq => hu ?_
        rw [heq]
        exact List.mem_map_of_mem ht
      rw [List.filter_cons, hne, if_neg Bool.false_ne_true]
      exact ih hids ht

theorem only_launch {ts : List Launch} (hids : (ts.map Launch.id).Nodup) {t : Launch}
    (ht : t ∈ ts) : (launch ts : Scheduler σ).only t.id = launch [t] := by
  simp only [launch_eq, only, List.filter_map, Function.comp_def, filter_id_eq hids ht]
  rfl

/-- **A thread fares in company as it does alone.** After any pulses, what is left of the scheduler
and of the record of slices without the other threads is what there is of them when the thread runs
by itself. -/
theorem threads_isolated (m : Interpreter σ) (hregistry : m.registry.Steady) (ts : List Launch)
    (hids : (ts.map Launch.id).Nodup) (t : Launch) (ht : t ∈ ts) (ps : List (Float × Nat))
    (w w' : σ) :
    let company := (launch ts).pulses m.executor.recording ps (⟨[], w⟩, [])
    let alone := (launch [t]).pulses m.executor.recording ps (⟨[], w'⟩, [])
    alone.1 = company.1.only t.id ∧ alone.2.2 = company.2.2.filter (·.thread == t.id) := by
  intro company alone
  let first (ts : List Launch) (w : σ) : Roster (Machine σ) := .of (launch ts) ⟨[], w⟩
  have hfirst : Apart (·.breakpoints = []) t.id (first ts w) (first [t] w') := by
    refine ⟨rfl, rfl, ?_, (only_launch hids ht).symm, rfl⟩
    exact congrArg Scheduler.paused (launch_eq ts)
  have hlast := hfirst.pulses (Interpreter.executor_steady hregistry) ps
  have hrun : ∀ ts w, (launch ts).pulses m.executor.recording ps (⟨[], w⟩, []) =
      let x := (first ts w).performAll m.executor (Operation.pulses ps)
      (x.scheduler.mapTell (Recording.slices m.executor).tell, x.world,
        x.log.map Grant.record) := by
    intro ts w
    have hpulses := pulses_recording m.executor ps (launch ts) ⟨[], w⟩ []
    rw [mapTell_launch, pulses_roster m.executor] at hpulses
    exact hpulses
  simp only [company, alone, hrun]
  exact ⟨congrArg (mapTell _) hlast.scheduler, hlast.records⟩

/-- Three threads with one routine. -/
def trio : List Launch := ["a", "b", "c"].map (⟨·, "main", "again"⟩)

theorem threads_isolated_trio :
    (trio.map Launch.id).Nodup ∧
      let ps := [(16, 10), (0, 1), (500, 3)]
      let company := (launch trio).pulses Interpreter.playThrice.executor.recording ps
        (⟨[], .new⟩, [])
      let alone := (launch [⟨"b", "main", "again"⟩]).pulses
        Interpreter.playThrice.executor.recording ps (⟨[], .new⟩, [])
      alone.1 = company.1.only "b" ∧ alone.2.2 = company.2.2.filter (·.thread == "b") := by
  have hids : (trio.map Launch.id).Nodup := by decide
  exact ⟨hids, threads_isolated .playThrice (Registry.steady_standard Sink) trio hids
    ⟨"b", "main", "again"⟩ (by decide) _ _ _⟩

end Scheduler

end TuneBlocks
