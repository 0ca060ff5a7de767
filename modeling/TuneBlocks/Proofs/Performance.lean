import TuneBlocks.Proofs.Following
import TuneBlocks.Proofs.Heard
import TuneBlocks.Proofs.Meaning

/-!
# Performances

However a session is driven, by pulses with any times and budgets, single steps, pauses and
breakpoints, each of its threads plays the same piece: of what it plays in two performances, one is
a beginning of the other (`Session.plays_alike`). A performance is kept as a roster, whose log says
which thread played what.
-/

namespace TuneBlocks

/-- What can be asked of a session. -/
inductive Control where
  | pulse (delta : Float) (budget : Nat)
  | step
  | pause
  | resume
  | setBreakpoints (breakpoints : List NodeId)

def Control.operation {σ : Type} : Control → Operation σ
  | pulse delta budget => .pulse delta budget
  | step => .step
  | pause => .pause
  | resume => .resume
  | setBreakpoints breakpoints => .setBreakpoints breakpoints

namespace Session

variable {σ : Type}

def control (s : Session σ) (w : σ) : Control → Session σ × σ
  | .pulse delta budget => s.pulse delta budget w
  | .step => s.step w
  | .pause => (s.pause, w)
  | .resume => (s.resume, w)
  | .setBreakpoints breakpoints => (s.setBreakpoints breakpoints, w)

def drive (s : Session σ) (w : σ) : List Control → Session σ × σ
  | [] => (s, w)
  | c :: cs => (s.control w c).1.drive (s.control w c).2 cs

/-- The session with another scheduler and machine. -/
def withState (s : Session σ) (state : Scheduler (Machine σ) × Machine σ) : Session σ × σ :=
  ({ s with scheduler := state.1, breakpoints := state.2.breakpoints }, state.2.world)

theorem control_eq (s : Session σ) (w : σ) (c : Control) :
    s.control w c =
      s.withState (s.scheduler.perform s.interpreter.executor ⟨s.breakpoints, w⟩ c.operation) := by
  cases c <;> rfl

theorem drive_eq (s : Session σ) (w : σ) (cs : List Control) :
    s.drive w cs = s.withState (s.scheduler.performAll s.interpreter.executor ⟨s.breakpoints, w⟩
      (cs.map Control.operation)) := by
  induction cs generalizing s w with
  | nil => rfl
  | cons c cs ih =>
    rw [drive, ih, control_eq]
    rfl

end Session

namespace Interpreter

/-- The threads of a program, as they are scheduled for a session. -/
def launches {σ : Type} (p : Program) : List (Operation σ) :=
  p.routines.values.map fun r => .schedule r.name r.name r.entry

/-- The roster of a session that is driven. -/
def performance {σ : Type} (m : Interpreter σ) (w : σ) (cs : List Control) : Roster (Machine σ) :=
  (Roster.new ⟨[], w⟩).performAll m.executor (launches m.program ++ cs.map Control.operation)

variable {σ : Type}

theorem performAll_launches (ex : Executor σ) (rs : List Routine) (s : Scheduler σ) (w : σ) :
    s.performAll ex w (rs.map fun r => .schedule r.name r.name r.entry) =
      (rs.foldl (fun s r => s.schedule r.name r.name r.entry) s, w) := by
  induction rs generalizing s with
  | nil => rfl
  | cons r rs ih => exact ih (s.schedule r.name r.name r.entry)

/-- The roster keeps the session that is driven. -/
theorem drive_eq_performance {m : Interpreter σ} {w w' : σ} {s : Session σ}
    (hstart : Session.start m w = (.ok s, w')) (cs : List Control) :
    s.drive w' cs = s.withState ((m.performance w' cs).scheduler, (m.performance w' cs).world) := by
  have hs : s = ⟨m, Session.threadsOf m.program, [], false⟩ := by
    unfold Session.start at hstart
    split at hstart
    · cases hstart
      rfl
    · cases hstart
  subst hs
  rw [Session.drive_eq, performance, Roster.performAll_eq, Scheduler.performAll_append, launches,
    Roster.new, performAll_launches]
  rfl

theorem launched_performance (p : Program) (cs : List Control) :
    Roster.launched (launches p ++ cs.map Control.operation : List (Operation σ)) =
      p.routines.values.map fun r => ⟨r.name, r.name, .start r.name r.entry⟩ := by
  have hnone : Roster.launched (cs.map Control.operation : List (Operation σ)) = [] := by
    refine List.filterMap_eq_nil_iff.2 fun op hop => ?_
    obtain ⟨c, -, rfl⟩ := List.mem_map.1 hop
    cases c <;> rfl
  unfold Roster.launched at hnone ⊢
  rw [List.filterMap_append, hnone, List.append_nil, launches, List.filterMap_map]
  exact congrFun List.filterMap_eq_map _

/-- The roster of a performance enrols the threads of the program, whatever the performance. -/
theorem enrolled_performance (m : Interpreter σ) (w : σ) (cs : List Control) :
    (m.performance w cs).enrolled =
      (m.program.routines.values.map fun r =>
        (⟨r.name, r.name, .start r.name r.entry⟩ : Thread)).mapIdx Prod.mk := by
  rw [performance, Roster.enrolled_new, launched_performance]

end Interpreter

/-! ## Events -/

/-- The events recorded in a world. -/
def HasSink.events {σ : Type} [HasSink σ] (w : σ) : List Event := (sink w).events

/-- The events of a slice. -/
def Grant.emitted {σ : Type} [HasSink σ] (g : Grant (Machine σ)) : List Event :=
  (HasSink.events g.result.world.world).drop (HasSink.events g.world.world).length

/-- What the thread with an id plays, times apart. -/
def Roster.played (x : Roster (Machine Sink)) (id : String) : List Event :=
  (x.log.filter (·.thread.id == id)).flatMap fun g => g.emitted.map Event.untimed

/-! ### The record -/

section
variable {σ : Type} [HasSink σ]

/-- Slices only add to the recorded events. -/
def Interpreter.AddsEvents (m : Interpreter σ) : Prop :=
  ∀ breakpoints routine c budget now w,
    HasSink.events w <+: HasSink.events (m.slice breakpoints routine c budget now w).world

/-- Being told of a breakpoint leaves the recorded events alone. -/
def Quiet (tell : NodeId → Machine σ → Machine σ) : Prop :=
  ∀ node v, HasSink.events (tell node v).world = HasSink.events v.world

/-- The events recorded since they were `es` are those of the slices, in order. -/
structure Roster.Sounds (es : List Event) (x : Roster (Machine σ)) : Prop where
  quiet : ∀ tell, x.scheduler.onHit = some tell → Quiet tell
  events : HasSink.events x.world.world = es ++ x.log.flatMap Grant.emitted

namespace Grant

variable {m : Interpreter σ} {tell? : Option (NodeId → Machine σ → Machine σ)}

theorem events_leaves (hquiet : ∀ tell, tell? = some tell → Quiet tell) (g : Grant (Machine σ)) :
    HasSink.events (g.leaves tell?).world = HasSink.events g.result.world.world := by
  unfold leaves
  split
  · exact hquiet _ rfl _ _
  · rfl

theorem events_worldAfter (hm : m.AddsEvents) (hquiet : ∀ tell, tell? = some tell → Quiet tell)
    (budget : Nat) (now : Float) (queue : List (Nat × Thread)) (v : Machine σ) :
    HasSink.events (worldAfter tell? v (m.executor.grants budget now queue v)).world =
      HasSink.events v.world ++ (m.executor.grants budget now queue v).flatMap Grant.emitted := by
  induction queue generalizing v with
  | nil => exact (List.append_nil _).symm
  | cons t queue ih =>
    let g := m.executor.grant budget now v t
    have hevents : HasSink.events v.world ++ g.emitted = HasSink.events g.result.world.world :=
      List.prefix_iff_eq_append.1 (hm v.breakpoints t.2.routine t.2.context budget now v.world)
    cases h : g.status.isBreakpoint with
    | true =>
      rw [Executor.grants_cons_of_hit h, worldAfter, List.foldl_cons, List.foldl_nil,
        List.flatMap_singleton, events_leaves hquiet, ← hevents]
    | false =>
      rw [Executor.grants_cons h, worldAfter, List.foldl_cons, leaves_of_not_hit h, ← worldAfter,
        ih, ← hevents, List.append_assoc, List.flatMap_cons]

end Grant

namespace Roster.Sounds

variable {m : Interpreter σ} {x : Roster (Machine σ)} {es : List Event}

theorem awake (h : x.Sounds es) (op : Operation (Machine σ)) : (x.awake op).Sounds es := by
  cases op <;> exact ⟨h.quiet, h.events⟩

theorem serve (hm : m.AddsEvents) (h : x.Sounds es) (budget count : Nat) :
    (x.serve m.executor budget count).Sounds es := by
  refine ⟨fun tell htell => h.quiet tell ?_, ?_⟩
  · rw [← htell]
    exact (Scheduler.runSlices_keeps ..).2.symm
  · have hworld := Grant.events_worldAfter hm h.quiet budget x.scheduler.clock
      (x.ready.take count) x.world
    rw [h.events, List.append_assoc, ← List.flatMap_append] at hworld
    exact hworld

theorem perform (hm : m.AddsEvents) (h : x.Sounds es) {op : Operation (Machine σ)}
    (hop : ∀ tell, op = .onHit tell → Quiet tell) : (x.perform m.executor op).Sounds es := by
  have hserved := (h.awake op).serve hm ((x.awake op).share op).1 ((x.awake op).share op).2
  cases op with
  | pulse delta budget => exact hserved
  | step => exact ⟨hserved.quiet, hserved.events⟩
  | onHit tell =>
    refine ⟨fun tell' htell => ?_, h.events⟩
    cases htell
    exact hop tell rfl
  | _ => exact ⟨h.quiet, h.events⟩

theorem performAll (hm : m.AddsEvents) (h : x.Sounds es) {ops : List (Operation (Machine σ))}
    (hops : ∀ tell, .onHit tell ∈ ops → Quiet tell) : (x.performAll m.executor ops).Sounds es := by
  induction ops generalizing x with
  | nil => exact h
  | cons op ops ih =>
    refine ih (h.perform hm fun tell htell => hops tell ?_) fun tell htell => hops tell ?_
    · exact htell ▸ List.mem_cons_self
    · exact List.mem_cons_of_mem _ htell

theorem new (v : Machine σ) : (Roster.new v).Sounds (HasSink.events v.world) :=
  ⟨fun _ htell => (Option.some_ne_none _ htell.symm).elim, (List.append_nil _).symm⟩

end Roster.Sounds

end

/-! ### Threads -/

namespace Interpreter

variable {m : Interpreter Sink}

theorem addsEvents (htransparent : m.registry.Transparent) (htimeless : m.registry.Timeless) :
    m.AddsEvents := by
  intro breakpoints routine c budget now w
  cases hr : m.program.routine? routine with
  | none =>
    simp only [slice, hr]
    exact List.prefix_refl _
  | some r =>
    obtain ⟨n, es, -, new, hevents, -⟩ := slice_heard htransparent htimeless hr breakpoints c
      budget now w
    exact ⟨new, hevents.symm⟩

/-- A thread is heard as the instructions are that it has executed. -/
theorem heard_of_follows (htransparent : m.registry.Transparent)
    (htimeless : m.registry.Timeless) {t t' : Thread} {r : Routine}
    (hr : m.program.routine? t.routine = some r) {gs : List (Grant (Machine Sink))}
    (h : Follows m.executor t gs t') :
    ∃ n es, Steps m.registry r n t.context.position es t'.context.position ∧
      gs.flatMap (fun g => g.emitted.map Event.untimed) =
        m.registry.heardAll t.context.memory es := by
  induction h with
  | nil => exact ⟨0, [], .refl, rfl⟩
  | @concat gs g hfollows hof ih =>
    obtain ⟨n, es, hsteps, hheard⟩ := ih
    rw [← hfollows.id_eq.2.1] at hr
    obtain ⟨k, es', hsteps', new, hevents, hheard'⟩ := slice_heard htransparent htimeless hr
      g.world.breakpoints g.thread.context g.budget g.now g.world.world
    have hresult : g.result = _ := hof
    have hgrant : g.emitted = new := by
      rw [Grant.emitted, hresult]
      exact (congrArg _ hevents).trans List.drop_left
    have hmemory : g.thread.context.memory = t.context.memory.performAll es := hsteps.memory_eq
    refine ⟨n + k, es ++ es', ?_, ?_⟩
    · rw [Grant.after, hresult]
      exact hsteps.trans hsteps'
    · rw [List.flatMap_append, hheard, List.flatMap_singleton, hgrant, hheard', hmemory,
        Registry.heardAll_append]

/-- However a session is driven, the sink has the events of the slices. -/
theorem sounds_performance (htransparent : m.registry.Transparent)
    (htimeless : m.registry.Timeless) (w : Sink) (cs : List Control) :
    (m.performance w cs).Sounds w.events := by
  have hnew := Roster.Sounds.new (⟨[], w⟩ : Machine Sink)
  refine hnew.performAll (addsEvents htransparent htimeless) fun tell hop => ?_
  rcases List.mem_append.1 hop with hop | hop
  · obtain ⟨r, -, hr⟩ := List.mem_map.1 hop
    cases hr
  · obtain ⟨c, -, hc⟩ := List.mem_map.1 hop
    cases c <;> cases hc

theorem mem_enrolled_performance {w : Sink} {cs : List Control} {n : Nat} {t : Thread}
    (ht : (n, t) ∈ (m.performance w cs).enrolled) :
    ∃ r ∈ m.program.routines.values, t = ⟨r.name, r.name, .start r.name r.entry⟩ := by
  rw [enrolled_performance] at ht
  obtain ⟨i, hi, heq⟩ := List.mem_mapIdx.1 ht
  cases heq
  rw [List.getElem_map]
  exact ⟨_, List.getElem_mem _, rfl⟩

theorem nodup_ids_performance
    (hnames : ∀ key r, (key, r) ∈ m.program.routines.entries → key = r.name) (w : Sink)
    (cs : List Control) : ((m.performance w cs).enrolled.map (·.2.id)).Nodup := by
  have hids : (m.performance w cs).enrolled.map (·.2.id) = m.program.routines.keys := by
    rw [enrolled_performance]
    refine List.ext_getElem (by simp [Keyed.values, Keyed.keys]) fun i hi _ => ?_
    simp only [Keyed.values, Keyed.keys, List.getElem_map, List.getElem_mapIdx]
    exact (hnames _ _ (List.getElem_mem _)).symm
  rw [hids]
  exact m.program.routines.keys_nodup

/-- Each thread of a program plays one piece, if the routines are under their names. -/
theorem played_comparable (htransparent : m.registry.Transparent)
    (htimeless : m.registry.Timeless)
    (hnames : ∀ key r, (key, r) ∈ m.program.routines.entries → key = r.name) (w w' : Sink)
    (cs cs' : List Control) (id : String) :
    (m.performance w cs).played id <+: (m.performance w' cs').played id ∨
      (m.performance w' cs').played id <+: (m.performance w cs).played id := by
  have hvalid : ∀ w cs, (m.performance w cs).Valid := fun w cs => (Roster.valid_new _).performAll ..
  have htracks : ∀ w cs, (m.performance w cs).Tracks m.executor :=
    fun w cs => Roster.tracks_performAll ..
  by_cases hid : ∃ n t, (n, t) ∈ (m.performance w cs).enrolled ∧ t.id = id
  · obtain ⟨n, t, ht, rfl⟩ := hid
    have ht' : (n, t) ∈ (m.performance w' cs').enrolled := by
      rw [enrolled_performance] at ht ⊢
      exact ht
    obtain ⟨r, hr, rfl⟩ := mem_enrolled_performance ht
    obtain ⟨⟨key, _⟩, hentry, rfl⟩ := List.mem_map.1 hr
    have hroutine : m.program.routine? _ = some _ := Keyed.get?_eq_some_iff.2 hentry
    rw [hnames key _ hentry] at hroutine
    obtain ⟨_, hfollows⟩ :=
      (htracks w cs).of_id (hvalid w cs) (nodup_ids_performance hnames w cs) ht
    obtain ⟨_, hfollows'⟩ :=
      (htracks w' cs').of_id (hvalid w' cs') (nodup_ids_performance hnames w' cs') ht'
    obtain ⟨k, es, hsteps, hplayed⟩ := heard_of_follows htransparent htimeless hroutine hfollows
    obtain ⟨k', es', hsteps', hplayed'⟩ :=
      heard_of_follows htransparent htimeless hroutine hfollows'
    rw [Roster.played, Roster.played, hplayed, hplayed']
    exact heard_comparable hsteps hsteps'
  · left
    have hnone : (m.performance w cs).played id = [] := by
      rw [Roster.played, List.filter_eq_nil_iff.2, List.flatMap_nil]
      intro g hg heq
      obtain ⟨t, ht, hthread⟩ := (htracks w cs).enrolled_of_mem_log (hvalid w cs) hg
      exact hid ⟨g.number, t, ht, hthread.symm.trans (beq_iff_eq.1 heq)⟩
    rw [hnone]
    exact List.nil_prefix

end Interpreter

/-- A roster says how a session is driven, and which thread gave the sink which events. -/
structure Session.RecordedBy (s : Session Sink) (w : Sink) (cs : List Control)
    (x : Roster (Machine Sink)) : Prop where
  drive : s.drive w cs = s.withState (x.scheduler, x.world)
  events : (s.drive w cs).2.events = w.events ++ x.log.flatMap Grant.emitted

/-- **What a thread plays does not depend on how it is driven.** -/
theorem Session.plays_alike (g : Graph) (starts : List Node) (w₁ w₁' w₂ w₂' : Sink)
    (s₁ s₂ : Session Sink)
    (h₁ : Session.start (Lowering.machineOf Sink g starts) w₁ = (.ok s₁, w₁'))
    (h₂ : Session.start (Lowering.machineOf Sink g starts) w₂ = (.ok s₂, w₂'))
    (cs₁ cs₂ : List Control) :
    let x₁ := (Lowering.machineOf Sink g starts).performance w₁' cs₁
    let x₂ := (Lowering.machineOf Sink g starts).performance w₂' cs₂
    s₁.RecordedBy w₁' cs₁ x₁ ∧ s₂.RecordedBy w₂' cs₂ x₂ ∧
      ∀ id, x₁.played id <+: x₂.played id ∨ x₂.played id <+: x₁.played id := by
  intro x₁ x₂
  have htransparent := Registry.transparent_standard Sink
  have htimeless := Registry.timeless_standard
  have hnames : ∀ key r, (key, r) ∈ (Lowering.machineOf Sink g starts).program.routines.entries →
      key = r.name := by
    intro key r hr
    obtain ⟨s, -, rfl, rfl⟩ :=
      (Lowering.routine?_compile_iff _ g starts).1 (Keyed.get?_eq_some_iff.2 hr)
    rfl
  have hrecorded : ∀ {w w' s}, Session.start (Lowering.machineOf Sink g starts) w = (.ok s, w') →
      ∀ cs, s.RecordedBy w' cs ((Lowering.machineOf Sink g starts).performance w' cs) := by
    intro w w' s hstart cs
    have hdrive := Interpreter.drive_eq_performance hstart cs
    refine ⟨hdrive, ?_⟩
    rw [hdrive]
    exact (Interpreter.sounds_performance htransparent htimeless w' cs).events
  refine ⟨hrecorded h₁ cs₁, hrecorded h₂ cs₂, fun id => ?_⟩
  exact Interpreter.played_comparable htransparent htimeless hnames w₁' w₂' cs₁ cs₂ id

theorem Session.plays_alike_playTwice :
    let m := Lowering.machineOf Sink Lowering.playTwice Lowering.playTwice.nodes
    let sink : Sink := { Sink.new with isOpen := true }
    let x₁ := m.performance sink [.pulse 16 10]
    let x₂ := m.performance sink [.setBreakpoints ["play"], .pulse 0 9, .step, .setBreakpoints [],
      .resume, .pulse 0 3, .pulse 500 4, .pulse 16 10]
    Session.start m .new = (.ok ⟨m, threadsOf m.program, [], false⟩, sink) ∧
      (x₁.played "thread_s").length = 1 ∧ (x₂.played "thread_s").length = 2 ∧
        ∀ id, x₁.played id <+: x₂.played id ∨ x₂.played id <+: x₁.played id := by
  intro m sink x₁ x₂
  have hstart : Session.start m .new = (.ok ⟨m, threadsOf m.program, [], false⟩, sink) := rfl
  refine ⟨hstart, by decide +kernel, by decide +kernel, ?_⟩
  exact (plays_alike Lowering.playTwice Lowering.playTwice.nodes _ _ _ _ _ _ hstart hstart _ _).2.2

end TuneBlocks
