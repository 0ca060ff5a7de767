import TuneBlocks.Proofs.Pass
import TuneBlocks.Proofs.Slices

/-!
# One program over two worlds

Two registries whose handlers answer alike, over worlds of different types, run a program alike: the
slices of its threads end in the same way, and pulses leave the same queues at the same time
(`Scheduler.Mirrors.pulse`). What the worlds have in common is a relation that the answers keep.
-/

namespace TuneBlocks

variable {σ τ : Type}

/-- The slices end in the same way, and leave worlds that are related. -/
structure SliceEnd.Mirrors (R : σ → τ → Prop) (x : SliceEnd σ) (y : SliceEnd τ) : Prop where
  status : x.status = y.status
  context : x.context = y.context
  world : R x.world y.world

inductive Turn.Mirrors (R : σ → τ → Prop) : Turn σ → Turn τ → Prop
  | stop : x.Mirrors R y → Mirrors R (.stop x) (.stop y)
  | next : R w v → Mirrors R (.next c w) (.next c v)

/-- The same calls are answered, and from related worlds the same comes of the replies. -/
def Registry.Mirrors (R : σ → τ → Prop) (registry : Registry σ) (registry' : Registry τ) : Prop :=
  ∀ name, Option.Rel
    (fun handler handler' => ∀ args now c w v, R w v →
      (handler args now c w).turn.Mirrors R (handler' args now c v).turn)
    (registry.handler? name) (registry'.handler? name)

namespace Interpreter

variable {R : σ → τ → Prop} {registry : Registry σ} {registry' : Registry τ} {w : σ} {v : τ}

theorem execute_mirrors (h : registry.Mirrors R registry') (a : Action) (now : Float) (c : Context)
    (hw : R w v) : (execute registry a now c w).Mirrors R (execute registry' a now c v) := by
  cases a with
  | call name args =>
    have hname := h name
    cases hhandler : registry.handler? name <;> cases hhandler' : registry'.handler? name <;>
      rw [hhandler, hhandler'] at hname <;> cases hname
    · simp only [execute, hhandler, hhandler']
      exact .next hw
    · rename_i hanswers
      rw [execute_call hhandler, execute_call hhandler']
      exact hanswers (args.map c.resolve) now c w v hw
  | yield => exact .stop ⟨rfl, rfl, hw⟩
  | _ => exact .next hw

theorem turn_mirrors (h : registry.Mirrors R registry') (r : Routine) (breakpoints : List NodeId)
    (now : Float) (c : Context) (hw : R w v) :
    (turn registry r breakpoints now c w).Mirrors R (turn registry' r breakpoints now c v) := by
  unfold turn
  cases fetch? r c with
  | none => exact .stop ⟨rfl, rfl, hw⟩
  | some i =>
    cases hstop : stopsAt? breakpoints c i with
    | some node =>
      simp only [hstop]
      exact .stop ⟨rfl, rfl, hw⟩
    | none =>
      simp only [hstop]
      exact execute_mirrors h i.action now (advance c i) hw

theorem run_mirrors (h : registry.Mirrors R registry') (r : Routine) (breakpoints : List NodeId)
    (now : Float) (budget : Nat) (c : Context) (hw : R w v) :
    (run registry r breakpoints now budget c w).Mirrors R
      (run registry' r breakpoints now budget c v) := by
  induction budget generalizing c w v with
  | zero => exact ⟨rfl, rfl, hw⟩
  | succ budget ih =>
    have hturn := turn_mirrors h r breakpoints now c hw
    unfold run
    generalize turn registry r breakpoints now c w = x at hturn
    generalize turn registry' r breakpoints now c v = y at hturn
    cases hturn with
    | stop hend => exact hend
    | next hw' => exact ih _ hw'

end Interpreter

/-- The breakpoints are the given ones on both sides, and the worlds are related. -/
structure Machine.Mirrors (breakpoints : List NodeId) (R : σ → τ → Prop) (x : Machine σ)
    (y : Machine τ) : Prop where
  left : x.breakpoints = breakpoints
  right : y.breakpoints = breakpoints
  world : R x.world y.world

/-- From related states the slices of both executors end in the same way. -/
def Executor.Mirrors (R : σ → τ → Prop) (ex : Executor σ) (ex' : Executor τ) : Prop :=
  ∀ id routine c budget now w v, R w v →
    (ex.slice id routine c budget now w).Mirrors R (ex'.slice id routine c budget now v)

theorem Interpreter.executor_mirrors {R : σ → τ → Prop} {m : Interpreter σ} {m' : Interpreter τ}
    (hprogram : m.program = m'.program) (h : m.registry.Mirrors R m'.registry)
    (breakpoints : List NodeId) :
    m.executor.Mirrors (Machine.Mirrors breakpoints R) m'.executor := by
  intro id routine c budget now w v ⟨hleft, hright, hw⟩
  have hslice : (m.slice w.breakpoints routine c budget now w.world).Mirrors R
      (m'.slice v.breakpoints routine c budget now v.world) := by
    unfold slice
    rw [hleft, hright, hprogram]
    cases m'.program.routine? routine with
    | none => exact ⟨rfl, rfl, hw⟩
    | some r => exact run_mirrors h r breakpoints now budget c hw
  exact ⟨hslice.status, hslice.context, hleft, hright, hslice.world⟩

/-! ## Passes and pulses -/

structure Pass.Mirrors (R : σ → τ → Prop) (x : Pass σ) (y : Pass τ) : Prop where
  done : x.done = y.done
  hit : x.hit = y.hit
  rest : x.rest = y.rest
  world : R x.world y.world

theorem Executor.pass_mirrors {R : σ → τ → Prop} {ex : Executor σ} {ex' : Executor τ}
    (h : ex.Mirrors R ex') (budget : Nat) (now : Float) (queue : List Thread) {w : σ} {v : τ}
    (hw : R w v) : (ex.pass budget now queue w).Mirrors R (ex'.pass budget now queue v) := by
  induction queue generalizing w v with
  | nil => exact ⟨rfl, rfl, rfl, hw⟩
  | cons t queue ih =>
    obtain ⟨hstatus, hcontext, hworld⟩ := h t.id t.routine t.context budget now w v hw
    have hqueue := ih hworld
    simp only [pass, ← hstatus, ← hcontext]
    split
    · exact ⟨rfl, rfl, rfl, hworld⟩
    · exact ⟨congrArg _ hqueue.done, hqueue.hit, hqueue.rest, hqueue.world⟩

namespace Scheduler

/-- Tells of a breakpoint, if there is somebody to tell. -/
def tell (s : Scheduler σ) (node : NodeId) (w : σ) : σ :=
  match s.onHit with
  | some tell => tell node w
  | none => w

/-- Telling of a breakpoint keeps worlds related. -/
def TellsAlike (R : σ → τ → Prop) (s : Scheduler σ) (s' : Scheduler τ) : Prop :=
  ∀ node w v, R w v → R (s.tell node w) (s'.tell node v)

/-- The same threads in the same queues at the same time, and worlds that are related. -/
structure Mirrors (R : σ → τ → Prop) (s : Scheduler σ) (w : σ) (s' : Scheduler τ) (v : τ) :
    Prop where
  ready : s.ready = s'.ready
  asleep : s.asleep = s'.asleep
  clock : s.clock = s'.clock
  paused : s.paused = s'.paused
  world : R w v

namespace Mirrors

variable {R : σ → τ → Prop} {s : Scheduler σ} {s' : Scheduler τ} {w : σ} {v : τ}

theorem isIdle (h : Mirrors R s w s' v) : s.isIdle = s'.isIdle := by
  rw [Scheduler.isIdle, h.ready, h.asleep]
  rfl

theorem tick (h : Mirrors R s w s' v) (delta : Float) :
    Mirrors R (s.tick delta) w (s'.tick delta) v := by
  refine ⟨?_, ?_, ?_, h.paused, h.world⟩
  · simp only [Scheduler.tick, wake, h.ready, h.asleep, h.clock]
  · simp only [Scheduler.tick, wake, h.asleep, h.clock]
  · simp only [Scheduler.tick, wake, h.clock]

theorem afterPass (h : Mirrors R s w s' v) (htell : TellsAlike R s s') (back : List Thread)
    {p : Pass σ} {p' : Pass τ} (hp : p.Mirrors R p') :
    Mirrors R (s.afterPass back p).1 (s.afterPass back p).2 (s'.afterPass back p').1
      (s'.afterPass back p').2 := by
  obtain ⟨hdone, hhit, hrest, hworld⟩ := hp
  simp only [Scheduler.afterPass, ← hdone, ← hhit, ← hrest]
  split
  · exact ⟨rfl, congrArg (· ++ _) h.asleep, h.clock, h.paused, hworld⟩
  · exact ⟨rfl, congrArg (· ++ _) h.asleep, h.clock, rfl, htell _ _ _ hworld⟩

/-- **Pulses keep the two runs in step.** -/
theorem pulse {ex : Executor σ} {ex' : Executor τ} (hex : ex.Mirrors R ex')
    (h : Mirrors R s w s' v) (htell : TellsAlike R s s') (delta : Float) (budget : Nat) :
    Mirrors R (s.pulse ex delta budget w).1 (s.pulse ex delta budget w).2
      (s'.pulse ex' delta budget v).1 (s'.pulse ex' delta budget v).2 := by
  have htick := h.tick delta
  have htell' : TellsAlike R (s.tick delta) (s'.tick delta) := htell
  rw [pulse_eq, pulse_eq, h.paused]
  split
  · exact htick
  · rw [htick.clock, htick.ready]
    exact htick.afterPass htell' [] (ex.pass_mirrors hex budget _ _ h.world)

end Mirrors

theorem onHit_pulse (ex : Executor σ) (delta : Float) (budget : Nat) (s : Scheduler σ) (w : σ) :
    (s.pulse ex delta budget w).1.onHit = s.onHit := by
  rw [pulse_eq, Scheduler.afterPass]
  split
  · rfl
  · split <;> rfl

end Scheduler

end TuneBlocks
