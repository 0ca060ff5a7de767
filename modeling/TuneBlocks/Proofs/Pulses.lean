import TuneBlocks.Proofs.Mirrors
import TuneBlocks.Proofs.Recording
import TuneBlocks.Proofs.Soundness

/-!
# The effect of a pulse

Without breakpoints a pulse is easily told: the executor is called for each thread of the queue
(`Executor.callAll`), and the threads are sorted by how their slices ended. A breakpoint stops that
at the first slice that comes to one (`Executor.pass_of_hit`). `pulse_exact` says where this leaves
every thread, for any executor and from any state, and which calls are made: `Executor.noting` is an
executor that notes its calls.
-/

namespace TuneBlocks

variable {σ : Type}

/-! ## Calls for a queue -/

namespace Executor

variable (ex : Executor σ) (budget : Nat) (now : Float)

/-- Calls for a slice of each thread of a queue, whether or not one stops at a breakpoint: the
threads as the slices leave them, with the ends of these. -/
def callAll : List Thread → σ → List (Thread × Status) × σ
  | [], w => ([], w)
  | t :: queue, w =>
    let result := ex.slice t.id t.routine t.context budget now w
    let rest := callAll queue result.world
    (({ t with context := result.context }, result.status) :: rest.1, rest.2)

theorem pass_of_no_hit {queue : List Thread} {w : σ}
    (h : (ex.callAll budget now queue w).1.findIdx? (·.2.isBreakpoint) = none) :
    ex.pass budget now queue w =
      ⟨(ex.callAll budget now queue w).1, none, [], (ex.callAll budget now queue w).2⟩ := by
  induction queue generalizing w with
  | nil => rfl
  | cons t queue ih =>
    simp only [callAll, List.findIdx?_cons] at h
    split at h
    · cases h
    · rename_i hstatus
      rw [Option.map_eq_none_iff] at h
      simp only [pass, callAll]
      split
      · rename_i node hnode
        rw [hnode] at hstatus
        exact absurd rfl hstatus
      · rw [ih h]

/-- Each thread is as a slice of it left it. -/
theorem exists_of_mem_callAll {queue : List Thread} {w : σ} {t : Thread} {status : Status}
    (h : (t, status) ∈ (ex.callAll budget now queue w).1) :
    ∃ (u : Thread) (v : σ),
      t = { u with context := (ex.slice u.id u.routine u.context budget now v).context } ∧
        status = (ex.slice u.id u.routine u.context budget now v).status := by
  induction queue generalizing w with
  | nil => exact absurd h List.not_mem_nil
  | cons u queue ih =>
    rcases List.mem_cons.1 h with heq | h
    · exact ⟨u, w, (Prod.mk.inj heq).1, (Prod.mk.inj heq).2⟩
    · exact ih h

/-- The first slice that stops at a breakpoint ends the pass. -/
theorem pass_of_hit {queue : List Thread} {w : σ} {k : Nat} {t : Thread} {node : NodeId}
    (hk : (ex.callAll budget now queue w).1.findIdx? (·.2.isBreakpoint) = some k)
    (hhit : (ex.callAll budget now queue w).1[k]? = some (t, .breakpoint node)) :
    ex.pass budget now queue w =
      ⟨(ex.callAll budget now queue w).1.take k, some (t, node), queue.drop (k + 1),
        (ex.callAll budget now (queue.take (k + 1)) w).2⟩ := by
  induction queue generalizing w k with
  | nil => cases hk
  | cons u queue ih =>
    simp only [callAll, List.findIdx?_cons] at hk hhit
    split at hk
    · cases hk
      rw [List.getElem?_cons_zero, Option.some.injEq, Prod.mk.injEq] at hhit
      obtain ⟨rfl, hstatus⟩ := hhit
      simp only [pass, callAll, hstatus, List.take_succ_cons, List.take_zero, List.drop_succ_cons,
        List.drop_zero]
    · rename_i hstatus
      obtain ⟨j, hj, rfl⟩ := Option.map_eq_some_iff.1 hk
      rw [List.getElem?_cons_succ] at hhit
      simp only [pass, callAll, List.take_succ_cons, List.drop_succ_cons]
      split
      · rename_i hnode
        rw [hnode] at hstatus
        exact absurd rfl hstatus
      · rw [ih hj hhit]

end Executor

/-! ## Notes of calls -/

/-- A call that a pulse makes: for a slice of a thread, or to tell of a breakpoint. -/
inductive Note where
  | slice (thread : Thread) (budget : Nat) (now : Float)
  | hit (node : NodeId)
deriving DecidableEq

/-- The executor, which also notes each call. -/
def Executor.noting (ex : Executor σ) : Executor (σ × List Note) :=
  ex.entering fun t budget now _ => .slice t budget now

/-- Notes are a record of slices, and of breakpoints that are told of. -/
def Recording.noting (ex : Executor σ) : Recording ex ex.noting Note :=
  .entering _ (fun node => [.hit node]) ex

namespace Executor

variable {ex : Executor σ} {budget : Nat} {now : Float} {queue : List (Nat × Thread)} {w : σ}

theorem notes_of_no_hit (tell? : Option (NodeId → σ → σ))
    (h : (ex.callAll budget now (queue.map Prod.snd) w).1.findIdx? (·.2.isBreakpoint) = none) :
    (ex.grants budget now queue w).flatMap ((Recording.noting ex).ofGrant tell?) =
      (queue.map Prod.snd).map (.slice · budget now) := by
  induction queue generalizing w with
  | nil => rfl
  | cons m queue ih =>
    simp only [List.map_cons, callAll, List.findIdx?_cons] at h
    split at h
    · cases h
    · rename_i hstatus
      have hgoes : (ex.grant budget now w m).status.isBreakpoint = false :=
        Bool.eq_false_iff.2 hstatus
      have hrest := ih (w := (ex.grant budget now w m).result.world) (Option.map_eq_none_iff.1 h)
      rw [grants_cons hgoes, List.flatMap_cons, Recording.ofGrant_of_not_hit _ hgoes, hrest]
      rfl

theorem notes_of_hit (tell? : Option (NodeId → σ → σ)) {k : Nat} {t : Thread} {node : NodeId}
    (hk : (ex.callAll budget now (queue.map Prod.snd) w).1.findIdx? (·.2.isBreakpoint) = some k)
    (hhit : (ex.callAll budget now (queue.map Prod.snd) w).1[k]? = some (t, .breakpoint node)) :
    (ex.grants budget now queue w).flatMap ((Recording.noting ex).ofGrant tell?) =
      ((queue.map Prod.snd).take (k + 1)).map (.slice · budget now) ++
        tell?.toList.map fun _ => .hit node := by
  induction queue generalizing w k with
  | nil => cases hk
  | cons m queue ih =>
    simp only [List.map_cons, callAll, List.findIdx?_cons] at hk hhit
    split at hk
    · rename_i hstatus
      cases hk
      rw [List.getElem?_cons_zero, Option.some.injEq, Prod.mk.injEq] at hhit
      have hnode : (ex.grant budget now w m).status = .breakpoint node := hhit.2
      rw [grants_cons_of_hit hstatus, List.flatMap_singleton, Recording.ofGrant_of_hit _ hnode]
      cases tell? with
      | none => rfl
      | some tell => rfl
    · rename_i hstatus
      have hgoes : (ex.grant budget now w m).status.isBreakpoint = false :=
        Bool.eq_false_iff.2 hstatus
      obtain ⟨j, hj, rfl⟩ := Option.map_eq_some_iff.1 hk
      rw [List.getElem?_cons_succ] at hhit
      have hrest := ih (w := (ex.grant budget now w m).result.world) hj hhit
      rw [grants_cons hgoes, List.flatMap_cons, Recording.ofGrant_of_not_hit _ hgoes, hrest]
      rfl

end Executor

namespace Scheduler

/-- The scheduler, for which telling of a breakpoint is noted too. -/
def noting (s : Scheduler σ) : Scheduler (σ × List Note) :=
  s.mapTell fun tell node w => (tell node w.1, w.2 ++ [.hit node])

/-- The note of a breakpoint, if there is somebody to tell. -/
def hitNotes (s : Scheduler σ) (node : NodeId) : List Note :=
  s.onHit.toList.map fun _ => .hit node

/-- The notes of a pulse, by its slices. -/
def pulseNotes (ex : Executor σ) (delta : Float) (budget : Nat) (s : Scheduler σ) (w : σ) :
    List Note :=
  ((Roster.of s w).grants ex (.pulse delta budget)).flatMap
    ((Recording.noting ex).ofGrant s.onHit)

/-! ## Pulses -/

theorem exists_hit {done : List (Thread × Status)} {k : Nat}
    (h : done.findIdx? (·.2.isBreakpoint) = some k) :
    ∃ t node, done[k]? = some (t, .breakpoint node) := by
  obtain ⟨hlt, hstatus, -⟩ := List.findIdx?_eq_some_iff_getElem.1 h
  rw [List.getElem?_eq_getElem hlt]
  generalize done[k] = x at hstatus
  obtain ⟨t, status⟩ := x
  cases status with
  | breakpoint node => exact ⟨t, node, rfl⟩
  | _ => cases hstatus

/-- The threads that a pulse finds ready: those that were, and the sleepers that are due. -/
def queueAt (s : Scheduler σ) (now : Float) : List Thread :=
  s.ready ++ (s.asleep.filter (·.wake ≤ now)).map Sleeper.thread

/-- The sleepers that are not due. -/
def waitingAt (s : Scheduler σ) (now : Float) : List Sleeper :=
  s.asleep.filter fun sleeper => ¬ sleeper.wake ≤ now

theorem wake_eq (s : Scheduler σ) :
    s.wake = { s with ready := s.queueAt s.clock, asleep := s.waitingAt s.clock } := by
  simp only [wake, List.partition_eq_filter_filter, queueAt, waitingAt, decide_not]
  rfl

theorem tick_eq (s : Scheduler σ) (delta : Float) :
    s.tick delta =
      { s with
        ready := s.queueAt (s.clock + delta)
        asleep := s.waitingAt (s.clock + delta)
        clock := s.clock + delta } :=
  wake_eq _

/-- The pulse takes the scheduler to `s'` and the world to `w'` and makes the calls `notes`: with
the calls noted it comes to the same, and the notes are these. -/
structure PulsesTo (ex : Executor σ) (delta : Float) (budget : Nat) (s : Scheduler σ) (w : σ)
    (s' : Scheduler σ) (w' : σ) (notes : List Note) : Prop where
  result : s.pulse ex delta budget w = (s', w')
  calls : ∀ before, s.noting.pulse ex.noting delta budget (w, before) =
    (s'.noting, w', before ++ notes)

/-- Notes do not change a pulse. -/
theorem pulsesTo_of_pulse {ex : Executor σ} {delta : Float} {budget : Nat} {s s' : Scheduler σ}
    {w w' : σ} (h : s.pulse ex delta budget w = (s', w')) :
    s.PulsesTo ex delta budget w s' w' (s.pulseNotes ex delta budget w) := by
  obtain ⟨hscheduler, hworld⟩ :=
    Prod.mk.inj (((Roster.of s w).perform_eq ex (.pulse delta budget)).trans h)
  refine ⟨h, fun before => ?_⟩
  have hrecord := (Recording.noting ex).perform_eq (Roster.of s w) (.pulse delta budget) before
  rw [hscheduler, hworld] at hrecord
  exact hrecord

theorem pulseNotes_of_paused {s : Scheduler σ} {budget : Nat} (h : s.paused = true ∧ 1 < budget)
    (ex : Executor σ) (delta : Float) (w : σ) : s.pulseNotes ex delta budget w = [] := by
  rw [pulseNotes, Roster.grants_pulse_of_paused ex h]
  rfl

section
variable {s : Scheduler σ} {budget : Nat} (h : ¬ (s.paused = true ∧ 1 < budget)) {ex : Executor σ}
  {delta : Float} {w w' : σ} {done : List (Thread × Status)}
include h

theorem pulse_of_no_hit
    (hdone : (ex.callAll budget (s.clock + delta) (s.queueAt (s.clock + delta)) w).1 = done)
    (hworld : (ex.callAll budget (s.clock + delta) (s.queueAt (s.clock + delta)) w).2 = w')
    (hnone : done.findIdx? (·.2.isBreakpoint) = none) :
    s.pulse ex delta budget w =
      ({ s with
          ready := Pass.readyOf done
          asleep := s.waitingAt (s.clock + delta) ++ Pass.sleepersOf done
          clock := s.clock + delta }, w') := by
  subst hdone hworld
  rw [pulse_of_running h, tick_eq]
  simp only [ex.pass_of_no_hit _ _ hnone]
  rfl

theorem pulse_of_hit {k : Nat} {t : Thread} {node : NodeId}
    (hdone : (ex.callAll budget (s.clock + delta) (s.queueAt (s.clock + delta)) w).1 = done)
    (hworld : (ex.callAll budget (s.clock + delta)
      ((s.queueAt (s.clock + delta)).take (k + 1)) w).2 = w')
    (hk : done.findIdx? (·.2.isBreakpoint) = some k)
    (hhit : done[k]? = some (t, .breakpoint node)) :
    s.pulse ex delta budget w =
      ({ s with
          ready := t :: (s.queueAt (s.clock + delta)).drop (k + 1) ++ Pass.readyOf (done.take k)
          asleep := s.waitingAt (s.clock + delta) ++ Pass.sleepersOf (done.take k)
          clock := s.clock + delta
          paused := true }, s.tell node w') := by
  subst hdone hworld
  rw [pulse_of_running h, tick_eq]
  simp only [ex.pass_of_hit _ _ hk hhit]
  rfl

theorem pulseNotes_of_running (ex : Executor σ) (delta : Float) (w : σ) :
    ∃ queue : List (Nat × Thread), queue.map Prod.snd = s.queueAt (s.clock + delta) ∧
      s.pulseNotes ex delta budget w = (ex.grants budget (s.clock + delta) queue w).flatMap
        ((Recording.noting ex).ofGrant s.onHit) := by
  let x := (Roster.of s w).awake (.pulse delta budget)
  have hready : x.scheduler = s.tick delta := rfl
  refine ⟨x.ready, ?_, ?_⟩
  · rw [x.ready_eq, hready, tick_eq]
  · rw [pulseNotes, Roster.grants_pulse ex h]
    rfl

end

/-- **The effect of a pulse**, from any state and for any executor. Time moves on, and the sleepers
that are due stand behind the threads that are ready. A pulse that is withheld calls nothing. Any
other calls the executor for the threads of this queue in their order, once each, up to the first
that stops at a breakpoint. Threads that can go on come to the end of the queue and those that fall
asleep to the end of the sleepers, both in their order. A thread at a breakpoint stays in front of
those behind it, which are left alone; it is told of, and the scheduler is paused. -/
theorem pulse_exact (ex : Executor σ) (delta : Float) (budget : Nat) (s : Scheduler σ) (w : σ) :
    let now := s.clock + delta
    let queue := s.ready ++ (s.asleep.filter (·.wake ≤ now)).map Sleeper.thread
    let waiting := s.asleep.filter fun sleeper => ¬ sleeper.wake ≤ now
    let done := (ex.callAll budget now queue w).1
    (s.paused = true ∧ 1 < budget →
      s.PulsesTo ex delta budget w
        { s with ready := queue, asleep := waiting, clock := now } w []) ∧
    (¬ (s.paused = true ∧ 1 < budget) →
      (done.findIdx? (·.2.isBreakpoint) = none →
        s.PulsesTo ex delta budget w
          { s with
            ready := Pass.readyOf done
            asleep := waiting ++ Pass.sleepersOf done
            clock := now }
          (ex.callAll budget now queue w).2 (queue.map (.slice · budget now))) ∧
      ∀ k, done.findIdx? (·.2.isBreakpoint) = some k →
        ∃ t node, done[k]? = some (t, .breakpoint node) ∧
          s.PulsesTo ex delta budget w
            { s with
              ready := t :: queue.drop (k + 1) ++ Pass.readyOf (done.take k)
              asleep := waiting ++ Pass.sleepersOf (done.take k)
              clock := now
              paused := true }
            (s.tell node (ex.callAll budget now (queue.take (k + 1)) w).2)
            ((queue.take (k + 1)).map (.slice · budget now) ++ s.hitNotes node)) := by
  intro now queue waiting done
  refine ⟨fun hpaused => ?_, fun hrunning => ?_⟩
  · have hpulse := pulsesTo_of_pulse (pulse_of_paused hpaused ex delta w)
    rw [pulseNotes_of_paused hpaused, tick_eq] at hpulse
    exact hpulse
  · obtain ⟨numbered, hqueue, hnotes⟩ := pulseNotes_of_running hrunning ex delta w
    have hdone : (ex.callAll budget now (numbered.map Prod.snd) w).1 = done := by
      rw [hqueue]
      rfl
    refine ⟨fun hnone => ?_, fun k hk => ?_⟩
    · have hslices := Executor.notes_of_no_hit s.onHit ((congrArg _ hdone).trans hnone)
      have hpulse := pulsesTo_of_pulse (pulse_of_no_hit hrunning rfl rfl hnone)
      rw [hnotes, hslices, hqueue] at hpulse
      exact hpulse
    · obtain ⟨t, node, hhit⟩ := exists_hit hk
      have hslices := Executor.notes_of_hit s.onHit ((congrArg _ hdone).trans hk)
        ((congrArg (·[k]?) hdone).trans hhit)
      have hpulse := pulsesTo_of_pulse (pulse_of_hit hrunning rfl rfl hk hhit)
      rw [hnotes, hslices, hqueue] at hpulse
      exact ⟨t, node, hhit, hpulse⟩

theorem pulse_exact_playThrice :
    let ex := Interpreter.playThrice.executor
    let thread (id : String) (parked : Option NodeId) : Thread :=
      ⟨id, "main", { Context.start id "again" with parked }⟩
    let a := thread "a" (some "note")
    let b := thread "b" none
    let c := thread "c" none
    let s : Scheduler (Machine Sink) := ⟨[a, b, c], [], 0, false, none⟩
    let now := s.clock + 16
    ∃ a' b' w, s.PulsesTo ex 16 1 ⟨["note"], .new⟩
      { s with ready := [b', c], asleep := [a'], clock := now, paused := true } w
      [.slice a 1 now, .slice b 1 now] := by
  intro ex thread a b c s now
  obtain ⟨-, hrunning⟩ := pulse_exact ex 16 1 s ⟨["note"], .new⟩
  obtain ⟨-, hhit⟩ := hrunning (by decide)
  obtain ⟨b', node, -, hpulse⟩ := hhit 1 (by decide)
  exact ⟨_, b', _, hpulse⟩

end Scheduler

end TuneBlocks
