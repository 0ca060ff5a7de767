import TuneBlocks.Scheduler

/-!
# Passes over the queue

A pulse gives each thread that is ready one slice. `Executor.pass` says what becomes of the threads
of a queue, without queue management: the slices that came to an end, the thread that stopped the
pass at a breakpoint, and the threads that were not reached. `runSlices_eq` says where the scheduler
puts them.
-/

namespace TuneBlocks

/-- What became of the threads of a queue. -/
structure Pass (σ : Type) where
  /-- The threads after their slices, with the ends of these, up to a breakpoint. -/
  done : List (Thread × Status)
  /-- The thread that stopped at a breakpoint. -/
  hit : Option (Thread × NodeId)
  /-- The threads behind it. -/
  rest : List Thread
  world : σ

/-- The threads that can go on at once. -/
def Pass.readyOf (done : List (Thread × Status)) : List Thread :=
  done.filterMap fun
    | (t, .ready) => some t
    | _ => none

/-- The threads that fell asleep. -/
def Pass.sleepersOf (done : List (Thread × Status)) : List Sleeper :=
  done.filterMap fun
    | (t, .sleeping wake) => some ⟨t, wake⟩
    | _ => none

namespace Executor

variable {σ : Type} (ex : Executor σ) (budget : Nat) (now : Float)

/-- Gives a slice to each thread of a queue, up to a breakpoint. -/
def pass : List Thread → σ → Pass σ
  | [], w => ⟨[], none, [], w⟩
  | t :: queue, w =>
    let result := ex.slice t.id t.routine t.context budget now w
    let t := { t with context := result.context }
    match result.status with
    | .breakpoint node => ⟨[], some (t, node), queue, result.world⟩
    | status =>
      let p := pass queue result.world
      { p with done := (t, status) :: p.done }

end Executor

namespace Scheduler

variable {σ : Type}

theorem foldl_schedule (id routine : α → String) (entry : α → Label) (l : List α)
    (s : Scheduler σ) :
    l.foldl (fun s a => s.schedule (id a) (routine a) (entry a)) s =
      { s with ready := s.ready ++
          l.map fun a => ⟨id a, routine a, .start (id a) (entry a)⟩ } := by
  induction l generalizing s with
  | nil => simp
  | cons a rest ih => rw [List.foldl_cons, ih]; simp [schedule]

/-- Puts the threads of a pass where they belong, behind those that are in the queue already. -/
def afterPass (s : Scheduler σ) (back : List Thread) (p : Pass σ) : Scheduler σ × σ :=
  match p.hit with
  | none =>
    ({ s with
        ready := back ++ Pass.readyOf p.done
        asleep := s.asleep ++ Pass.sleepersOf p.done }, p.world)
  | some (t, node) =>
    ({ s with
        ready := t :: p.rest ++ (back ++ Pass.readyOf p.done)
        asleep := s.asleep ++ Pass.sleepersOf p.done
        paused := true },
      match s.onHit with
      | some tell => tell node p.world
      | none => p.world)

theorem runSlices_eq (ex : Executor σ) (budget : Nat) (queue back : List Thread)
    (s : Scheduler σ) (w : σ) (hready : s.ready = queue ++ back) :
    runSlices ex budget queue.length s w = s.afterPass back (ex.pass budget s.clock queue w) := by
  induction queue generalizing back s w with
  | nil =>
    rw [List.nil_append] at hready
    subst hready
    simp [runSlices, afterPass, Executor.pass, Pass.readyOf, Pass.sleepersOf]
  | cons t queue ih =>
    rw [List.cons_append] at hready
    simp only [List.length_cons, runSlices, hready, Executor.pass]
    cases hstatus : (ex.slice t.id t.routine t.context budget s.clock w).status with
    | ready =>
      -- the thread goes behind those that had their turn before it
      simp only
      rw [ih _ { s with ready := queue ++ back ++ [_] } _ (List.append_assoc queue back [_])]
      simp only [afterPass, Pass.readyOf, Pass.sleepersOf, List.filterMap_cons, List.append_assoc,
        List.singleton_append]
    | sleeping wake =>
      simp only [ih back { s with ready := queue ++ back, asleep := _ } _ rfl, afterPass,
        Pass.readyOf, Pass.sleepersOf, List.filterMap_cons, List.append_assoc,
        List.singleton_append]
    | halted =>
      simp only [ih back { s with ready := queue ++ back } _ rfl, afterPass, Pass.readyOf,
        Pass.sleepersOf, List.filterMap_cons]
    | breakpoint node =>
      refine Prod.ext ?_ rfl
      simp only [afterPass, Pass.readyOf, Pass.sleepersOf, List.filterMap_nil, List.append_nil,
        List.cons_append]

/-- Moves the clock on and wakes the sleepers that are due. -/
def tick (s : Scheduler σ) (delta : Float) : Scheduler σ :=
  { s with clock := s.clock + delta }.wake

/-- **What a pulse does.** Unless it is withheld, the threads of the queue and then the sleepers
that are due have their slices. -/
theorem pulse_eq (ex : Executor σ) (delta : Float) (budget : Nat) (s : Scheduler σ) (w : σ) :
    s.pulse ex delta budget w =
      if s.paused && 1 < budget then (s.tick delta, w)
      else (s.tick delta).afterPass []
        (ex.pass budget (s.tick delta).clock (s.tick delta).ready w) := by
  have hslices := runSlices_eq ex budget (s.tick delta).ready [] (s.tick delta) w
    (List.append_nil _).symm
  rw [← hslices]
  rfl

theorem withheld_iff {s : Scheduler σ} {budget : Nat} :
    (s.paused && decide (1 < budget)) = true ↔ s.paused = true ∧ 1 < budget := by
  rw [Bool.and_eq_true, decide_eq_true_iff]

theorem pulse_of_paused {s : Scheduler σ} {budget : Nat} (h : s.paused = true ∧ 1 < budget)
    (ex : Executor σ) (delta : Float) (w : σ) : s.pulse ex delta budget w = (s.tick delta, w) := by
  rw [pulse_eq, if_pos (withheld_iff.2 h)]

theorem pulse_of_running {s : Scheduler σ} {budget : Nat} (h : ¬ (s.paused = true ∧ 1 < budget))
    (ex : Executor σ) (delta : Float) (w : σ) :
    s.pulse ex delta budget w = (s.tick delta).afterPass []
      (ex.pass budget (s.tick delta).clock (s.tick delta).ready w) := by
  rw [pulse_eq, if_neg (mt withheld_iff.1 h)]

end Scheduler

end TuneBlocks
