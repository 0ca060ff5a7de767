import TuneBlocks.Proofs.Pass

/-!
# Rosters

A scheduler does not tell two threads with the same id apart. A roster does: it is a scheduler with
its threads numbered in the order in which they were scheduled, and with a log of all slices that
were granted. The scheduler and the world in it are those of the run without numbers
(`Roster.performAll_eq`), and its numbered queues are the queues of the scheduler
(`Roster.ready_eq`, `Roster.asleep_eq`).
-/

namespace TuneBlocks

/-- What can be asked of a scheduler. -/
inductive Operation (σ : Type) where
  | schedule (id routine : String) (entry : Label)
  | pulse (delta : Float) (budget : Nat)
  | step
  | pause
  | resume
  | setBreakpoints (breakpoints : List NodeId)
  | onHit (tell : NodeId → σ → σ)

namespace Scheduler

variable {σ : Type}

def perform (ex : Executor σ) (s : Scheduler σ) (w : σ) : Operation σ → Scheduler σ × σ
  | .schedule id routine entry => (s.schedule id routine entry, w)
  | .pulse delta budget => s.pulse ex delta budget w
  | .step => s.step ex w
  | .pause => (s.pause, w)
  | .resume => (s.resume, w)
  | .setBreakpoints breakpoints => (s, ex.setBreakpoints breakpoints w)
  | .onHit tell => ({ s with onHit := some tell }, w)

def performAll (ex : Executor σ) (s : Scheduler σ) (w : σ) : List (Operation σ) → Scheduler σ × σ
  | [] => (s, w)
  | op :: ops => performAll ex (s.perform ex w op).1 (s.perform ex w op).2 ops

theorem performAll_append (ex : Executor σ) (s : Scheduler σ) (w : σ)
    (ops ops' : List (Operation σ)) :
    s.performAll ex w (ops ++ ops') =
      (s.performAll ex w ops).1.performAll ex (s.performAll ex w ops).2 ops' := by
  induction ops generalizing s w with
  | nil => rfl
  | cons op ops ih => exact ih _ _

theorem runSlices_keeps (ex : Executor σ) (budget count : Nat) (s : Scheduler σ) (w : σ) :
    (s.runSlices ex budget count w).1.clock = s.clock ∧
      (s.runSlices ex budget count w).1.onHit = s.onHit := by
  induction count generalizing s w with
  | zero => exact ⟨rfl, rfl⟩
  | succ count ih =>
    unfold runSlices
    split
    · exact ⟨rfl, rfl⟩
    · rename_i t queue _
      cases hstatus : (ex.slice t.id t.routine t.context budget s.clock w).status with
      | breakpoint node => simp only [hstatus, and_self]
      | _ =>
        simp only [hstatus]
        exact ih _ _

/-- A pulse gives slices to the whole queue, unless it is withheld. -/
theorem pulse_eq_runSlices (ex : Executor σ) (delta : Float) (budget : Nat) (s : Scheduler σ)
    (w : σ) : s.pulse ex delta budget w = (s.tick delta).runSlices ex budget
      (if (s.tick delta).paused && 1 < budget then 0 else (s.tick delta).ready.length) w := by
  change (if (s.tick delta).paused && 1 < budget then (s.tick delta, w) else _) = _
  split <;> rfl

theorem runSlices_one (ex : Executor σ) (budget : Nat) (s : Scheduler σ) (w : σ) :
    s.runSlices ex budget 1 w = s.runSlices ex budget (s.ready.take 1).length w := by
  cases hready : s.ready with
  | nil => simp only [List.take_nil, List.length_nil, runSlices, hready]
  | cons t queue => rfl

end Scheduler

/-! ## Slices granted -/

/-- A slice that a thread was given: the thread and the world before it, and how it ended. -/
structure Grant (σ : Type) where
  number : Nat
  thread : Thread
  budget : Nat
  now : Float
  world : σ
  result : SliceEnd σ

namespace Grant

variable {σ : Type}

def status (g : Grant σ) : Status := g.result.status

def after (g : Grant σ) : Thread := { g.thread with context := g.result.context }

/-- The threads whose slices ended in one of some ways, as they are then. -/
def those (p : Status → Bool) (gs : List (Grant σ)) : List (Nat × Thread) :=
  (gs.filter fun g => p g.status).map fun g => (g.number, g.after)

/-- What a slice leaves behind, once a breakpoint hit has been told. -/
def leaves (tell? : Option (NodeId → σ → σ)) (g : Grant σ) : σ :=
  match g.status, tell? with
  | .breakpoint node, some tell => tell node g.result.world
  | _, _ => g.result.world

def worldAfter (tell? : Option (NodeId → σ → σ)) (w : σ) (gs : List (Grant σ)) : σ :=
  gs.foldl (fun _ g => g.leaves tell?) w

def sleepers (gs : List (Grant σ)) : List (Nat × Sleeper) :=
  gs.filterMap fun g =>
    match g.status with
    | .sleeping wake => some (g.number, ⟨g.after, wake⟩)
    | _ => none

end Grant

namespace Status

def isReady : Status → Bool
  | ready => true
  | _ => false

def isHalted : Status → Bool
  | halted => true
  | _ => false

def isBreakpoint : Status → Bool
  | breakpoint _ => true
  | _ => false

end Status

namespace Grant

variable {σ : Type}

theorem readyOf_done (gs : List (Grant σ)) :
    Pass.readyOf ((gs.filter fun g => !g.status.isBreakpoint).map fun g => (g.after, g.status)) =
      (those Status.isReady gs).map Prod.snd := by
  induction gs with
  | nil => rfl
  | cons g gs ih =>
    simp only [Pass.readyOf, those] at ih ⊢
    cases h : g.status <;> simp_all [Status.isBreakpoint, Status.isReady]

theorem sleepersOf_done (gs : List (Grant σ)) :
    Pass.sleepersOf ((gs.filter fun g => !g.status.isBreakpoint).map fun g => (g.after, g.status)) =
      (sleepers gs).map Prod.snd := by
  induction gs with
  | nil => rfl
  | cons g gs ih =>
    simp only [Pass.sleepersOf, sleepers] at ih ⊢
    cases h : g.status <;> simp_all [Status.isBreakpoint]

end Grant

namespace Executor

variable {σ : Type} (ex : Executor σ) (budget : Nat) (now : Float)

def grant (w : σ) (m : Nat × Thread) : Grant σ :=
  ⟨m.1, m.2, budget, now, w, ex.slice m.2.id m.2.routine m.2.context budget now w⟩

/-- The slices of the threads of a queue, up to a breakpoint. -/
def grants : List (Nat × Thread) → σ → List (Grant σ)
  | [], _ => []
  | m :: queue, w =>
    let g := ex.grant budget now w m
    if g.status.isBreakpoint then [g] else g :: grants queue g.result.world

section
variable {ex : Executor σ} {budget : Nat} {now : Float} {m : Nat × Thread} {w : σ}

theorem grants_cons (h : (ex.grant budget now w m).status.isBreakpoint = false)
    (queue : List (Nat × Thread)) : ex.grants budget now (m :: queue) w =
      ex.grant budget now w m ::
        ex.grants budget now queue (ex.grant budget now w m).result.world := by
  simp only [grants, h, Bool.false_eq_true, ↓reduceIte]

theorem grants_cons_of_hit (h : (ex.grant budget now w m).status.isBreakpoint = true)
    (queue : List (Nat × Thread)) : ex.grants budget now (m :: queue) w =
      [ex.grant budget now w m] := by
  simp only [grants, h, ↓reduceIte]

theorem pass_cons (h : (ex.grant budget now w m).status.isBreakpoint = false)
    (queue : List Thread) : ex.pass budget now (m.2 :: queue) w =
      let p := ex.pass budget now queue (ex.grant budget now w m).result.world
      { p with
        done :=
          ((ex.grant budget now w m).after, (ex.grant budget now w m).status) :: p.done } := by
  simp only [pass]
  split
  · rename_i node hnode
    have hstatus : (ex.grant budget now w m).status = .breakpoint node := hnode
    rw [hstatus] at h
    cases h
  · rfl

theorem pass_cons_of_hit (h : (ex.grant budget now w m).status.isBreakpoint = true)
    (queue : List Thread) : ∃ node, (ex.grant budget now w m).status = .breakpoint node ∧
      ex.pass budget now (m.2 :: queue) w =
        ⟨[], some ((ex.grant budget now w m).after, node), queue,
          (ex.grant budget now w m).result.world⟩ := by
  cases hstatus : (ex.grant budget now w m).status with
  | breakpoint node =>
    have hslice : (ex.slice m.2.id m.2.routine m.2.context budget now w).status =
      .breakpoint node := hstatus
    refine ⟨node, rfl, ?_⟩
    simp only [pass, hslice]
    rfl
  | _ =>
    rw [hstatus] at h
    cases h

end

theorem exists_of_mem_grants {ex : Executor σ} {budget : Nat} {now : Float}
    {queue : List (Nat × Thread)} {w : σ} {g : Grant σ} (hg : g ∈ ex.grants budget now queue w) :
    ∃ w' m, g = ex.grant budget now w' m := by
  induction queue generalizing w with
  | nil => exact absurd hg List.not_mem_nil
  | cons m queue ih =>
    cases h : (ex.grant budget now w m).status.isBreakpoint with
    | true =>
      rw [grants_cons_of_hit h] at hg
      exact ⟨w, m, List.mem_singleton.1 hg⟩
    | false =>
      rw [grants_cons h] at hg
      rcases List.mem_cons.1 hg with rfl | hg
      · exact ⟨w, m, rfl⟩
      · exact ih hg

/-- The slices go to the first threads of the queue. -/
theorem grants_before (queue : List (Nat × Thread)) (w : σ) :
    (ex.grants budget now queue w).map (fun g => (g.number, g.thread)) <+: queue := by
  induction queue generalizing w with
  | nil => exact List.prefix_refl []
  | cons m queue ih =>
    cases h : (ex.grant budget now w m).status.isBreakpoint with
    | true =>
      rw [grants_cons_of_hit h]
      exact ⟨queue, rfl⟩
    | false =>
      rw [grants_cons h]
      exact List.cons_prefix_cons.2 ⟨rfl, ih _⟩

/-- The numbered slices are those of a pass. -/
theorem pass_eq (queue : List (Nat × Thread)) (w : σ) :
    let p := ex.pass budget now (queue.map Prod.snd) w
    let gs := ex.grants budget now queue w
    p.done = (gs.filter fun g => !g.status.isBreakpoint).map (fun g => (g.after, g.status)) ∧
      p.hit.toList.map Prod.fst = (Grant.those Status.isBreakpoint gs).map Prod.snd ∧
      p.rest = (queue.drop gs.length).map Prod.snd := by
  induction queue generalizing w with
  | nil => exact ⟨rfl, rfl, rfl⟩
  | cons m queue ih =>
    rw [List.map_cons]
    cases h : (ex.grant budget now w m).status.isBreakpoint with
    | true =>
      obtain ⟨node, -, hpass⟩ := pass_cons_of_hit h (queue.map Prod.snd)
      simp [hpass, grants_cons_of_hit h, Grant.those, h]
    | false =>
      obtain ⟨hdone, hhit, hrest⟩ := ih (ex.grant budget now w m).result.world
      simp only [pass_cons h, grants_cons h, Grant.those] at hhit ⊢
      simp [h, hdone, hhit, hrest]

theorem pass_rest (queue : List Thread) (w : σ) (h : (ex.pass budget now queue w).hit = none) :
    (ex.pass budget now queue w).rest = [] := by
  induction queue generalizing w with
  | nil => rfl
  | cons t queue ih =>
    simp only [pass] at h ⊢
    split at h
    · cases h
    · exact ih _ h

end Executor

theorem Scheduler.queues_afterPass {σ : Type} (s : Scheduler σ) (back : List Thread) (p : Pass σ)
    (h : p.hit = none → p.rest = []) :
    (s.afterPass back p).1.ready = p.hit.toList.map Prod.fst ++ p.rest ++
        (back ++ Pass.readyOf p.done) ∧
      (s.afterPass back p).1.asleep = s.asleep ++ Pass.sleepersOf p.done := by
  unfold afterPass
  split
  · rename_i hhit
    rw [hhit, h hhit]
    exact ⟨rfl, rfl⟩
  · rename_i t node hhit
    rw [hhit]
    exact ⟨rfl, rfl⟩

theorem Grant.leaves_of_not_hit {σ : Type} {g : Grant σ} (h : g.status.isBreakpoint = false)
    (tell? : Option (NodeId → σ → σ)) : g.leaves tell? = g.result.world := by
  unfold leaves
  split
  · rename_i hstatus
    rw [hstatus] at h
    cases h
  · rfl

theorem Scheduler.world_afterPass {σ : Type} (ex : Executor σ) (budget : Nat) (now : Float)
    (s : Scheduler σ) (back : List Thread) (queue : List (Nat × Thread)) (w : σ) :
    (s.afterPass back (ex.pass budget now (queue.map Prod.snd) w)).2 =
      Grant.worldAfter s.onHit w (ex.grants budget now queue w) := by
  induction queue generalizing w with
  | nil => rfl
  | cons m queue ih =>
    rw [List.map_cons]
    cases h : (ex.grant budget now w m).status.isBreakpoint with
    | true =>
      obtain ⟨node, hstatus, hpass⟩ := Executor.pass_cons_of_hit h (queue.map Prod.snd)
      rw [hpass, Executor.grants_cons_of_hit h]
      simp only [afterPass, Grant.worldAfter, List.foldl_cons, List.foldl_nil, Grant.leaves,
        hstatus]
      cases s.onHit <;> rfl
    | false =>
      rw [Executor.pass_cons h, Executor.grants_cons h, Grant.worldAfter, List.foldl_cons,
        Grant.leaves_of_not_hit h, ← Grant.worldAfter, ← ih]
      generalize ex.pass budget now (queue.map Prod.snd) _ = p
      cases hhit : p.hit <;> simp only [afterPass, hhit]

/-! ## Numbered threads -/

/-- A scheduler at work, with its threads numbered and its slices logged. -/
structure Roster (σ : Type) where
  scheduler : Scheduler σ
  world : σ
  ready : List (Nat × Thread)
  asleep : List (Nat × Sleeper)
  /-- The threads as they were scheduled. -/
  enrolled : List (Nat × Thread)
  log : List (Grant σ)
  ready_eq : ready.map Prod.snd = scheduler.ready
  asleep_eq : asleep.map Prod.snd = scheduler.asleep

namespace Roster

variable {σ : Type}

def new (w : σ) : Roster σ := ⟨.new, w, [], [], [], [], rfl, rfl⟩

/-- A scheduler at work, with its threads numbered as they stand in the queues. -/
def of (s : Scheduler σ) (w : σ) : Roster σ where
  scheduler := s
  world := w
  ready := s.ready.mapIdx Prod.mk
  asleep := s.asleep.mapIdx Prod.mk
  enrolled := []
  log := []
  ready_eq := by simp [List.mapIdx_eq_zipIdx_map, Function.comp_def]
  asleep_eq := by simp [List.mapIdx_eq_zipIdx_map, Function.comp_def]

/-- The same threads in the same queues of another scheduler. -/
def keep (x : Roster σ) (s : Scheduler σ) (w : σ) (hready : s.ready = x.scheduler.ready)
    (hasleep : s.asleep = x.scheduler.asleep) : Roster σ :=
  { x with
    scheduler := s
    world := w
    ready_eq := x.ready_eq.trans hready.symm
    asleep_eq := x.asleep_eq.trans hasleep.symm }

def schedule (x : Roster σ) (id routine : String) (entry : Label) : Roster σ :=
  let m : Nat × Thread := (x.enrolled.length, ⟨id, routine, .start id entry⟩)
  { x with
    scheduler := x.scheduler.schedule id routine entry
    ready := x.ready ++ [m]
    enrolled := x.enrolled ++ [m]
    ready_eq := by simp only [List.map_append, x.ready_eq, Scheduler.schedule]; rfl }

/-- Whether the time of a sleeper has come. -/
def isDue (now : Float) (m : Nat × Sleeper) : Bool := m.2.wake ≤ now

def woken (m : Nat × Sleeper) : Nat × Thread := (m.1, m.2.thread)

def wake (x : Roster σ) : Roster σ :=
  { x with
    scheduler := x.scheduler.wake
    ready := x.ready ++ (x.asleep.filter (isDue x.scheduler.clock)).map woken
    asleep := x.asleep.filter fun m => !isDue x.scheduler.clock m
    ready_eq := by
      simp only [Scheduler.wake, List.partition_eq_filter_filter, List.map_append, x.ready_eq,
        ← x.asleep_eq, List.filter_map, List.map_map]
      rfl
    asleep_eq := by
      simp only [Scheduler.wake, List.partition_eq_filter_filter, ← x.asleep_eq, List.filter_map]
      rfl }

/-- Slices for the first `count` threads of the queue. -/
def granted (ex : Executor σ) (budget count : Nat) (x : Roster σ) : List (Grant σ) :=
  ex.grants budget x.scheduler.clock (x.ready.take count) x.world

theorem ready_split (x : Roster σ) (count : Nat) : x.scheduler.ready =
    (x.ready.take count).map Prod.snd ++ (x.ready.drop count).map Prod.snd := by
  rw [← List.map_append, List.take_append_drop, x.ready_eq]

theorem runSlices_eq (ex : Executor σ) (budget count : Nat) (x : Roster σ) :
    let gs := x.granted ex budget count
    let result := x.scheduler.runSlices ex budget (x.ready.take count).length x.world
    result.1.ready = (Grant.those Status.isBreakpoint gs ++ x.ready.drop gs.length ++
        Grant.those Status.isReady gs).map Prod.snd ∧
      result.1.asleep = (x.asleep ++ Grant.sleepers gs).map Prod.snd ∧
      result.2 = Grant.worldAfter x.scheduler.onHit x.world gs := by
  intro gs result
  have hlength : gs.length ≤ (x.ready.take count).length := by
    have hle := (ex.grants_before budget x.scheduler.clock (x.ready.take count) x.world).length_le
    rwa [List.length_map] at hle
  have hdrop : x.ready.drop gs.length =
      (x.ready.take count).drop gs.length ++ x.ready.drop count := by
    conv => lhs; rw [← List.take_append_drop count x.ready]
    rw [List.drop_append_of_le_length hlength]
  obtain ⟨hdone, hhit, hrest⟩ :=
    ex.pass_eq budget x.scheduler.clock (x.ready.take count) x.world
  have hslices := Scheduler.runSlices_eq ex budget _ _ x.scheduler x.world (x.ready_split count)
  rw [List.length_map] at hslices
  obtain ⟨hready', hasleep'⟩ := x.scheduler.queues_afterPass ((x.ready.drop count).map Prod.snd) _
    (ex.pass_rest budget x.scheduler.clock ((x.ready.take count).map Prod.snd) x.world)
  refine ⟨?_, ?_, ?_⟩
  · rw [hdrop]
    simp only [result, hslices, hready', hdone, hhit, hrest, Grant.readyOf_done, List.map_append,
      List.append_assoc]
    rfl
  · simp only [result, hslices, hasleep', hdone, Grant.sleepersOf_done, List.map_append,
      x.asleep_eq]
    rfl
  · simp only [result, hslices]
    exact Scheduler.world_afterPass ..

def serve (ex : Executor σ) (budget count : Nat) (x : Roster σ) : Roster σ :=
  let gs := x.granted ex budget count
  let result := x.scheduler.runSlices ex budget (x.ready.take count).length x.world
  { x with
    scheduler := result.1
    world := Grant.worldAfter x.scheduler.onHit x.world gs
    ready := Grant.those Status.isBreakpoint gs ++ x.ready.drop gs.length ++
      Grant.those Status.isReady gs
    asleep := x.asleep ++ Grant.sleepers gs
    log := x.log ++ gs
    ready_eq := (x.runSlices_eq ex budget count).1.symm
    asleep_eq := (x.runSlices_eq ex budget count).2.1.symm }

/-- The roster as an operation finds it, once the time has moved on and the sleepers that are due
have woken. -/
def awake (x : Roster σ) : Operation σ → Roster σ
  | .pulse delta _ =>
    (x.keep { x.scheduler with clock := x.scheduler.clock + delta } x.world rfl rfl).wake
  | .step => (x.keep x.scheduler.resume x.world rfl rfl).wake
  | _ => x

/-- The budget of an operation, and the number of threads that get it. -/
def share (x : Roster σ) : Operation σ → Nat × Nat
  | .pulse _ budget => (budget, if x.scheduler.paused && 1 < budget then 0 else x.ready.length)
  | .step => (1, 1)
  | _ => (0, 0)

/-- The slices of an operation. -/
def grants (ex : Executor σ) (x : Roster σ) (op : Operation σ) : List (Grant σ) :=
  (x.awake op).granted ex ((x.awake op).share op).1 ((x.awake op).share op).2

def served (ex : Executor σ) (x : Roster σ) (op : Operation σ) : Roster σ :=
  (x.awake op).serve ex ((x.awake op).share op).1 ((x.awake op).share op).2

def perform (ex : Executor σ) (x : Roster σ) (op : Operation σ) : Roster σ :=
  match op with
  | .schedule id routine entry => x.schedule id routine entry
  | .pulse .. => x.served ex op
  | .step => (x.served ex op).keep (x.served ex op).scheduler.pause (x.served ex op).world rfl rfl
  | .pause => x.keep x.scheduler.pause x.world rfl rfl
  | .resume => x.keep x.scheduler.resume x.world rfl rfl
  | .setBreakpoints breakpoints =>
    x.keep x.scheduler (ex.setBreakpoints breakpoints x.world) rfl rfl
  | .onHit tell => x.keep { x.scheduler with onHit := some tell } x.world rfl rfl

def performAll (ex : Executor σ) (x : Roster σ) (ops : List (Operation σ)) : Roster σ :=
  ops.foldl (fun x op => x.perform ex op) x

theorem serve_eq (ex : Executor σ) (budget count : Nat) (x : Roster σ) :
    ((x.serve ex budget count).scheduler, (x.serve ex budget count).world) =
      x.scheduler.runSlices ex budget (x.ready.take count).length x.world :=
  Prod.ext rfl (x.runSlices_eq ex budget count).2.2.symm

/-- A pulse serves the whole queue, unless it is withheld. -/
theorem length_share_pulse (x : Roster σ) (delta : Float) (budget : Nat) :
    (x.ready.take (x.share (.pulse delta budget)).2).length =
      if x.scheduler.paused && 1 < budget then 0 else x.scheduler.ready.length := by
  simp only [share]
  split
  · rfl
  · rw [List.take_length, ← x.ready_eq, List.length_map]

theorem length_share_step (x : Roster σ) :
    (x.ready.take (x.share .step).2).length = (x.scheduler.ready.take 1).length := by
  rw [← x.ready_eq, ← List.map_take, List.length_map]
  rfl

theorem perform_eq (ex : Executor σ) (x : Roster σ) (op : Operation σ) :
    ((x.perform ex op).scheduler, (x.perform ex op).world) = x.scheduler.perform ex x.world op := by
  have hserved := serve_eq ex ((x.awake op).share op).1 ((x.awake op).share op).2 (x.awake op)
  cases op with
  | pulse delta budget =>
    rw [length_share_pulse] at hserved
    exact hserved.trans (Scheduler.pulse_eq_runSlices ..).symm
  | step =>
    rw [length_share_step, ← Scheduler.runSlices_one] at hserved
    refine Prod.ext ?_ ?_
    · exact congrArg (fun p => p.1.pause) hserved
    · exact congrArg (fun p => p.2) hserved
  | _ => rfl

/-- The scheduler and the world of a roster are those of the run without numbers. -/
theorem performAll_eq (ex : Executor σ) (x : Roster σ) (ops : List (Operation σ)) :
    ((x.performAll ex ops).scheduler, (x.performAll ex ops).world) =
      x.scheduler.performAll ex x.world ops := by
  induction ops generalizing x with
  | nil => rfl
  | cons op ops ih =>
    rw [Scheduler.performAll, ← x.perform_eq ex op]
    exact ih (x.perform ex op)

theorem log_awake (x : Roster σ) (op : Operation σ) : (x.awake op).log = x.log := by
  cases op <;> rfl

/-- An operation logs its slices. -/
theorem log_perform (ex : Executor σ) (x : Roster σ) (op : Operation σ) :
    (x.perform ex op).log = x.log ++ x.grants ex op := by
  cases op with
  | pulse | step => rfl
  | _ => exact (List.append_nil _).symm

section
variable (ex : Executor σ) {x : Roster σ} {budget : Nat}

theorem grants_pulse_of_paused (h : x.scheduler.paused = true ∧ 1 < budget) (delta : Float) :
    x.grants ex (.pulse delta budget) = [] := by
  have hnone : ((x.awake (.pulse delta budget)).share (.pulse delta budget)).2 = 0 :=
    if_pos (Scheduler.withheld_iff.2 h)
  rw [grants, hnone]
  rfl

/-- A pulse that is not withheld is for all threads of the queue. -/
theorem grants_pulse (h : ¬ (x.scheduler.paused = true ∧ 1 < budget)) (delta : Float) :
    x.grants ex (.pulse delta budget) = ex.grants budget (x.scheduler.tick delta).clock
      (x.awake (.pulse delta budget)).ready x.world := by
  have hall : ((x.awake (.pulse delta budget)).share (.pulse delta budget)).2 =
      (x.awake (.pulse delta budget)).ready.length :=
    if_neg (mt Scheduler.withheld_iff.1 h)
  rw [grants, hall, granted, List.take_length]
  rfl

end

/-- What is kept by what an operation does is kept by it. -/
theorem perform_induction {ex : Executor σ} {P : Roster σ → Prop}
    (hkeep : ∀ x s w hready hasleep, P x → P (x.keep s w hready hasleep))
    (hschedule : ∀ x id routine entry, P x → P (x.schedule id routine entry))
    (hwake : ∀ x, P x → P x.wake)
    (hserve : ∀ x budget count, P x → P (x.serve ex budget count))
    {x : Roster σ} (hx : P x) (op : Operation σ) : P (x.perform ex op) := by
  have hserved : P (x.awake op) → P (x.served ex op) := fun h => hserve _ _ _ h
  cases op with
  | schedule id routine entry => exact hschedule x id routine entry hx
  | pulse delta budget => exact hserved (hwake _ (hkeep _ _ _ _ _ hx))
  | step =>
    exact hkeep _ (x.served ex .step).scheduler.pause _ rfl rfl
      (hserved (hwake _ (hkeep _ _ _ _ _ hx)))
  | pause => exact hkeep x x.scheduler.pause x.world rfl rfl hx
  | resume => exact hkeep x x.scheduler.resume x.world rfl rfl hx
  | setBreakpoints breakpoints => exact hkeep x x.scheduler _ rfl rfl hx
  | onHit tell => exact hkeep x { x.scheduler with onHit := some tell } x.world rfl rfl hx

end Roster

end TuneBlocks
