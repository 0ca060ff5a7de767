import TuneBlocks.Proofs.Breakpoints
import TuneBlocks.Proofs.Documents
import TuneBlocks.Proofs.Meaning
import TuneBlocks.Proofs.Mirrors
import TuneBlocks.Proofs.RunCommand
import TuneBlocks.Proofs.SharedSink
import TuneBlocks.Proofs.Waking

/-!
# Runs with breakpoints

The slices of the threads say what the run command prints: the events of the slices, and a line for
each slice that stopped at a breakpoint (`Command.Performance.lines`). A round of its loop is a
pulse and, if a breakpoint stopped that, single steps. Each round prints its own lines and leaves
the scheduler running (`Command.Performance.Clear.advance`), and the first of the single steps gets
the thread that was stopped past its breakpoint (`Command.Performance.Clear.getsPast`).
-/

namespace TuneBlocks

/-! ## Slices -/

namespace Grant

variable {σ : Type}

/-- The breakpoint that a slice stopped at. -/
def hit? (g : Grant σ) : Option NodeId :=
  match g.status with
  | .breakpoint node => some node
  | _ => none

theorem hit?_eq_some_iff {g : Grant σ} {node : NodeId} :
    g.hit? = some node ↔ g.status = .breakpoint node := by
  unfold hit?
  split
  · rename_i stop hstop
    rw [hstop, Option.some.injEq, Status.breakpoint.injEq]
  · rename_i hstop
    exact ⟨fun h => (Option.some_ne_none _ h.symm).elim, fun h => (hstop node h).elim⟩

theorem hit?_of_not_hit {g : Grant σ} (h : g.status.isBreakpoint = false) : g.hit? = none := by
  cases hhit : g.hit? with
  | none => rfl
  | some node =>
    rw [hit?_eq_some_iff.1 hhit] at h
    cases h

/-- The instructions that a slice executes. -/
def instructions (m : Interpreter σ) (g : Grant (Machine σ)) : List Instruction :=
  m.answerInstructions g.thread.routine g.thread.context g.sliceCall

end Grant

namespace Executor

variable {σ : Type} (ex : Executor σ) (budget : Nat) (now : Float)

theorem grants_singleton (t : Nat × Thread) (w : σ) :
    ex.grants budget now [t] w = [ex.grant budget now w t] := by
  rw [grants]
  split <;> rfl

/-- At most one slice stops at a breakpoint: no other follows it. -/
theorem those_of_hit {queue : List (Nat × Thread)} {w : σ} {g : Grant σ}
    (hg : g ∈ ex.grants budget now queue w) (hhit : g.status.isBreakpoint = true) :
    Grant.those Status.isBreakpoint (ex.grants budget now queue w) = [(g.number, g.after)] := by
  induction queue generalizing w with
  | nil => exact absurd hg List.not_mem_nil
  | cons t queue ih =>
    cases h : (ex.grant budget now w t).status.isBreakpoint with
    | true =>
      rw [grants_cons_of_hit h] at hg ⊢
      obtain rfl := List.mem_singleton.1 hg
      simp only [Grant.those, List.filter_cons, h, ↓reduceIte, List.filter_nil, List.map_cons,
        List.map_nil]
    | false =>
      rw [grants_cons h] at hg ⊢
      rcases List.mem_cons.1 hg with rfl | hg
      · rw [hhit] at h
        cases h
      · rw [Grant.those, List.filter_cons, h]
        exact ih hg

theorem isSome_hit_pass (queue : List (Nat × Thread)) (w : σ) :
    (ex.pass budget now (queue.map Prod.snd) w).hit.isSome =
      (ex.grants budget now queue w).any (·.status.isBreakpoint) := by
  induction queue generalizing w with
  | nil => rfl
  | cons t queue ih =>
    rw [List.map_cons]
    cases h : (ex.grant budget now w t).status.isBreakpoint with
    | true =>
      obtain ⟨node, -, hpass⟩ := pass_cons_of_hit h (queue.map Prod.snd)
      rw [hpass, grants_cons_of_hit h, List.any_cons, h]
      rfl
    | false =>
      rw [pass_cons h, grants_cons h, List.any_cons, h, Bool.false_or]
      exact ih _

theorem now_of_mem_grants {queue : List (Nat × Thread)} {w : σ} {g : Grant σ}
    (hg : g ∈ ex.grants budget now queue w) : g.now = now := by
  obtain ⟨w', t, rfl⟩ := exists_of_mem_grants hg
  rfl

theorem isOf_of_mem_grants {queue : List (Nat × Thread)} {w : σ} {g : Grant σ}
    (hg : g ∈ ex.grants budget now queue w) : g.IsOf ex := by
  obtain ⟨w', t, rfl⟩ := exists_of_mem_grants hg
  rfl

end Executor

namespace Roster

variable {σ : Type}

/-- A pass pauses the scheduler exactly if one of its slices stops at a breakpoint. -/
theorem paused_serve (ex : Executor σ) (budget count : Nat) (x : Roster σ) :
    (x.serve ex budget count).scheduler.paused =
      (x.scheduler.paused || (x.granted ex budget count).any (·.status.isBreakpoint)) := by
  have hslices := Scheduler.runSlices_eq ex budget _ _ x.scheduler x.world (x.ready_split count)
  rw [List.length_map] at hslices
  rw [granted, ← Executor.isSome_hit_pass]
  simp only [serve, hslices, Scheduler.afterPass]
  split
  · rename_i hhit
    rw [hhit]
    exact (Bool.or_false _).symm
  · rename_i hhit
    rw [hhit]
    exact (Bool.or_true _).symm

end Roster

namespace Command

/-! ## What slices do to the stage -/

/-- The slices `gs` take the state from `v` to `v'`: they add their events to the sink, and the
breakpoints that they stopped at to those to be reported. -/
structure Accounts (gs : List (Grant (Machine Stage))) (v v' : Machine Stage) : Prop where
  breakpoints : v'.breakpoints = v.breakpoints
  events : v'.world.sink.events = v.world.sink.events ++ gs.flatMap Grant.emitted
  hits : v'.world.hits.reverse = v.world.hits.reverse ++ gs.filterMap Grant.hit?

theorem Accounts.nil {v : Machine Stage} : Accounts [] v v :=
  ⟨rfl, (List.append_nil _).symm, (List.append_nil _).symm⟩

theorem Accounts.append {gs gs' : List (Grant (Machine Stage))} {v v' v'' : Machine Stage}
    (h : Accounts gs v v') (h' : Accounts gs' v' v'') : Accounts (gs ++ gs') v v'' where
  breakpoints := h'.breakpoints.trans h.breakpoints
  events := by rw [h'.events, h.events, List.append_assoc, List.flatMap_append]
  hits := by rw [h'.hits, h.hits, List.append_assoc, List.filterMap_append]

theorem standard_keeps (old : List Event) (hits : List NodeId) :
    (Registry.standard Stage).Keeps fun w => old <+: w.sink.events ∧ w.hits = hits := by
  intro name handler h args now c w ⟨hevents, hhits⟩
  have hemit : ∀ e, old <+: (w.sink.emit e).events := by
    intro e
    rw [Sink.events_emit]
    exact hevents.trans (List.prefix_append _ _)
  cases Registry.answers_of_handler? Stage h with
  | playNote | setVolume | print => exact ⟨hemit _, hhits⟩
  | rest | wait | setTempo => exact ⟨hevents, hhits⟩

theorem leaves_told (g : Grant (Machine Stage)) : g.leaves (some Stage.told) =
    { g.result.world with
      world := { g.result.world.world with
        hits := g.hit?.toList ++ g.result.world.world.hits } } := by
  unfold Grant.leaves Grant.hit?
  cases g.status <;> rfl

section
variable {m : Interpreter Stage}

theorem accounts_grant (hregistry : m.registry = .standard Stage) (budget : Nat) (now : Float)
    (v : Machine Stage) (t : Nat × Thread) :
    Accounts [m.executor.grant budget now v t] v
      ((m.executor.grant budget now v t).leaves (some Stage.told)) := by
  have hkeeps := standard_keeps v.world.sink.events v.world.hits
  rw [← hregistry] at hkeeps
  obtain ⟨hevents, hhits⟩ := Interpreter.slice_keeps hkeeps t.2.id t.2.routine t.2.context budget
    now (v := v) ⟨List.prefix_refl _, rfl⟩
  have hhits' : (m.executor.grant budget now v t).result.world.world.hits = v.world.hits := hhits
  rw [leaves_told]
  refine ⟨rfl, ?_, ?_⟩
  · rw [List.flatMap_singleton]
    exact (List.prefix_iff_eq_append.1 hevents).symm
  · simp only [hhits', List.reverse_append, List.filterMap_cons, List.filterMap_nil]
    cases (m.executor.grant budget now v t).hit? <;> rfl

theorem accounts_grants (hregistry : m.registry = .standard Stage) (budget : Nat) (now : Float)
    (queue : List (Nat × Thread)) (v : Machine Stage) :
    Accounts (m.executor.grants budget now queue v) v
      (Grant.worldAfter (some Stage.told) v (m.executor.grants budget now queue v)) := by
  induction queue generalizing v with
  | nil => exact .nil
  | cons t queue ih =>
    have hfirst := accounts_grant hregistry budget now v t
    cases h : (m.executor.grant budget now v t).status.isBreakpoint with
    | true =>
      rw [Executor.grants_cons_of_hit h]
      exact hfirst
    | false =>
      rw [Grant.leaves_of_not_hit h] at hfirst
      rw [Executor.grants_cons h, Grant.worldAfter, List.foldl_cons, Grant.leaves_of_not_hit h]
      exact hfirst.append (ih _)

end

/-! ## Operations -/

namespace Performance

/-- What the slices of a performance work on. -/
def machine (p : Performance) : Machine Stage := ⟨p.session.breakpoints, p.stage⟩

def roster (p : Performance) : Roster (Machine Stage) := .of p.session.scheduler p.machine

/-- The slices that an operation gives to the threads. -/
def slices (p : Performance) (op : Operation (Machine Stage)) : List (Grant (Machine Stage)) :=
  p.roster.grants p.session.interpreter.executor op

/-- The performance with its scheduler and its stage as they are in a roster. -/
def withRoster (p : Performance) (x : Roster (Machine Stage)) : Performance :=
  let (session, stage) := p.session.withState (x.scheduler, x.world)
  { p with session, stage }

theorem pulse_eq (p : Performance) (o : RunOptions) : p.pulse o =
    p.withRoster (p.roster.perform p.session.interpreter.executor (.pulse o.pulse o.budget)) := by
  rw [withRoster, Roster.perform_eq]
  rfl

theorem step_eq (p : Performance) :
    p.step = p.withRoster (p.roster.perform p.session.interpreter.executor .step) := by
  rw [withRoster, Roster.perform_eq]
  rfl

/-- The calls are answered by the standard blocks, and breakpoints are remembered. -/
structure Attentive (p : Performance) : Prop where
  registry : p.session.interpreter.registry = .standard Stage
  onHit : p.session.scheduler.onHit = some Stage.told

/-- An operation with slices `gs` takes the performance `p` to `q`. -/
structure Acts (gs : List (Grant (Machine Stage))) (p q : Performance) : Prop where
  console : q.console = p.console
  attentive : q.Attentive
  accounts : Accounts gs p.machine q.machine
  now : ∀ g ∈ gs, g.now = q.session.scheduler.clock

theorem Attentive.accounts_served {p : Performance} (h : p.Attentive)
    (op : Operation (Machine Stage)) : Accounts (p.slices op) p.machine
      (p.roster.served p.session.interpreter.executor op).world := by
  have hworld : (p.roster.awake op).world = p.machine := by cases op <;> rfl
  have honHit : (p.roster.awake op).scheduler.onHit = some Stage.told := by
    cases op <;> exact h.onHit
  have haccounts := accounts_grants h.registry ((p.roster.awake op).share op).1
    (p.roster.awake op).scheduler.clock
    ((p.roster.awake op).ready.take ((p.roster.awake op).share op).2) p.machine
  simp only [Roster.served, Roster.serve, honHit, hworld]
  rw [slices, Roster.grants, Roster.granted, hworld]
  exact haccounts

theorem now_of_mem_slices {p : Performance} {op : Operation (Machine Stage)}
    {g : Grant (Machine Stage)} (hg : g ∈ p.slices op) :
    g.now = (p.roster.perform p.session.interpreter.executor op).scheduler.clock := by
  rw [Roster.clock_perform, ← Roster.clock_awake]
  exact Executor.now_of_mem_grants _ _ _ hg

theorem Attentive.acts_pulse {p : Performance} (h : p.Attentive) (o : RunOptions) :
    Acts (p.slices (.pulse o.pulse o.budget)) p (p.pulse o) where
  console := rfl
  attentive := ⟨h.registry, (Scheduler.onHit_pulse ..).trans h.onHit⟩
  accounts := by
    rw [pulse_eq]
    exact h.accounts_served (.pulse o.pulse o.budget)
  now g hg := by
    rw [pulse_eq]
    exact now_of_mem_slices hg

theorem Attentive.acts_step {p : Performance} (h : p.Attentive) :
    Acts (p.slices .step) p p.step where
  console := rfl
  attentive := ⟨h.registry, (Scheduler.runSlices_keeps p.session.interpreter.executor 1 1
    p.session.scheduler.resume.wake p.machine).2.trans h.onHit⟩
  accounts := by
    rw [step_eq]
    exact h.accounts_served .step
  now g hg := by
    rw [step_eq]
    exact now_of_mem_slices hg

end Performance

/-! ## Rounds -/

/-- A line that the run command prints. -/
inductive Line where
  | event (e : Event)
  | hit (node : NodeId) (time : Float)
deriving DecidableEq

namespace Line

def render (json : Bool) : Line → String
  | event e => eventLine json e
  | hit node time => hitLine node time

/-- The breakpoint of a line, with its time. -/
def hit? : Line → Option (NodeId × Float)
  | event _ => none
  | hit node time => some (node, time)

end Line

/-- The line for a slice that stopped at a breakpoint. -/
def lineOf? (g : Grant (Machine Stage)) : Option Line := g.hit?.map (.hit · g.now)

/-- The lines for the events of some slices. -/
def eventsOf (gs : List (Grant (Machine Stage))) : List Line :=
  (gs.flatMap Grant.emitted).map .event

namespace Performance

/-- The slices of single steps, as many as `stepThrough` makes. -/
def stepSlices : Nat → Performance → List (Grant (Machine Stage))
  | 0, _ => []
  | steps + 1, p =>
    if p.session.scheduler.isIdle then []
    else p.slices .step ++ stepSlices steps p.step.reportHits

/-- The slices of the pulse of a round. -/
def pulseSlices (p : Performance) (flags : RunFlags) : List (Grant (Machine Stage)) :=
  p.slices (.pulse flags.options.pulse flags.options.budget)

/-- The slices of the single steps of a round. -/
def laterSlices (p : Performance) (flags : RunFlags) : List (Grant (Machine Stage)) :=
  let p := (p.pulse flags.options).printEvents flags.json
  if p.session.scheduler.paused then stepSlices flags.options.budget p.reportHits else []

/-- What a round prints: the events of the pulse, the breakpoints of the pulse and of the single
steps, and the events of these. -/
def lines (p : Performance) (flags : RunFlags) : List Line :=
  eventsOf (p.pulseSlices flags) ++
    (p.pulseSlices flags ++ p.laterSlices flags).filterMap lineOf? ++
    eventsOf (p.laterSlices flags)

/-- The performances as the rounds of the loop find them. -/
def rounds (flags : RunFlags) : (limit : Nat) → Performance → List Performance
  | 0, _ => []
  | limit + 1, p =>
    if p.session.scheduler.isIdle then [] else p :: rounds flags limit (p.advance flags)

theorem console_printEvents {p : Performance} {gs : List (Grant (Machine Stage))}
    (h : p.stage.sink.events = gs.flatMap Grant.emitted) (json : Bool) :
    (p.printEvents json).console = p.console.printLines ((eventsOf gs).map (Line.render json)) := by
  rw [printEvents_eq, h, eventsOf, List.map_map]
  rfl

theorem console_reportHits {p : Performance} {gs : List (Grant (Machine Stage))}
    (h : p.stage.hits.reverse = gs.filterMap Grant.hit?)
    (hnow : ∀ g ∈ gs, g.now = p.session.scheduler.clock) (json : Bool) :
    p.reportHits.console =
      p.console.printLines ((gs.filterMap lineOf?).map (Line.render json)) := by
  have hlines : (gs.filterMap Grant.hit?).map (hitLine · p.session.scheduler.clock) =
      (gs.filterMap lineOf?).map (Line.render json) := by
    rw [List.map_filterMap, List.map_filterMap]
    refine List.filterMap_congr fun g hg => ?_
    rw [lineOf?, Option.map_map, hnow g hg]
    rfl
  rw [reportHits_eq, h, hlines]

/-- Single steps with slices `gs`, and the reports of their breakpoints, take `p` to `q`. -/
structure StepsThrough (json : Bool) (gs : List (Grant (Machine Stage))) (p q : Performance) :
    Prop where
  console : q.console = p.console.printLines ((gs.filterMap lineOf?).map (Line.render json))
  attentive : q.Attentive
  events : q.stage.sink.events = p.stage.sink.events ++ gs.flatMap Grant.emitted
  hits : q.stage.hits = []

theorem stepsThrough_step {p : Performance} (h : p.Attentive) (hhits : p.stage.hits = [])
    (json : Bool) : StepsThrough json (p.slices .step) p p.step.reportHits := by
  have hacts := h.acts_step
  have hnew : p.step.stage.hits.reverse = (p.slices .step).filterMap Grant.hit? := by
    have hreverse := hacts.accounts.hits
    simp only [machine, hhits] at hreverse
    exact hreverse
  refine ⟨?_, ?_, ?_, rfl⟩
  · rw [console_reportHits hnew hacts.now json, hacts.console]
  · exact ⟨hacts.attentive.registry, hacts.attentive.onHit⟩
  · exact hacts.accounts.events

theorem StepsThrough.trans {json : Bool} {gs gs' : List (Grant (Machine Stage))}
    {p q r : Performance} (h : StepsThrough json gs p q) (h' : StepsThrough json gs' q r) :
    StepsThrough json (gs ++ gs') p r where
  console := by
    rw [h'.console, h.console, List.filterMap_append, List.map_append, Console.printLines_append]
  attentive := h'.attentive
  events := by rw [h'.events, h.events, List.append_assoc, List.flatMap_append]
  hits := h'.hits

theorem stepsThrough_resume {p : Performance} (h : p.Attentive) (hhits : p.stage.hits = [])
    (json : Bool) : StepsThrough json [] p { p with session := p.session.resume } :=
  ⟨rfl, ⟨h.registry, h.onHit⟩, (List.append_nil _).symm, hhits⟩

theorem stepsThrough_stepThrough {p : Performance} (h : p.Attentive) (hhits : p.stage.hits = [])
    (json : Bool) (steps : Nat) : StepsThrough json (p.stepSlices steps) p (p.stepThrough steps) ∧
      (p.stepThrough steps).session.scheduler.paused = false := by
  induction steps generalizing p with
  | zero => exact ⟨stepsThrough_resume h hhits json, rfl⟩
  | succ steps ih =>
    rw [stepSlices, stepThrough]
    split
    · exact ⟨stepsThrough_resume h hhits json, rfl⟩
    · have hstep := stepsThrough_step h hhits json
      obtain ⟨hrest, hrunning⟩ := ih hstep.attentive hstep.hits
      exact ⟨hstep.trans hrest, hrunning⟩

/-- Nothing is left to be printed, and the scheduler is running. -/
structure Clear (p : Performance) : Prop extends p.Attentive where
  events : p.stage.sink.events = []
  hits : p.stage.hits = []
  running : p.session.scheduler.paused = false

theorem paused_pulse {p : Performance} (h : p.session.scheduler.paused = false) (flags : RunFlags) :
    (p.pulse flags.options).session.scheduler.paused =
      (p.pulseSlices flags).any (·.status.isBreakpoint) := by
  rw [pulse_eq]
  refine (Roster.paused_serve ..).trans ?_
  have hrunning : (p.roster.awake
      (.pulse flags.options.pulse flags.options.budget)).scheduler.paused = false := h
  rw [hrunning, Bool.false_or]
  rfl

/-- **A round prints its lines**, and leaves nothing behind. -/
theorem Clear.advance {p : Performance} (h : p.Clear) (flags : RunFlags) :
    (p.advance flags).Clear ∧ (p.advance flags).console =
      p.console.printLines ((p.lines flags).map (Line.render flags.json)) := by
  have hacts := h.acts_pulse flags.options
  have hevents : (p.pulse flags.options).stage.sink.events =
      (p.pulseSlices flags).flatMap Grant.emitted :=
    hacts.accounts.events.trans (congrArg (· ++ _) h.events)
  have hhits : (p.pulse flags.options).stage.hits.reverse =
      (p.pulseSlices flags).filterMap Grant.hit? :=
    hacts.accounts.hits.trans (congrArg (List.reverse · ++ _) h.hits)
  have hprinted := console_printEvents hevents flags.json
  rw [hacts.console] at hprinted
  have hpaused := paused_pulse h.running flags
  simp only [Performance.advance, lines, laterSlices]
  generalize hq : (p.pulse flags.options).printEvents flags.json = q at hprinted
  have hattentive : q.Attentive := by
    rw [← hq]
    exact ⟨hacts.attentive.registry, hacts.attentive.onHit⟩
  have hdrained : q.stage.sink.events = [] := by
    rw [← hq]
    rfl
  have hhits' : q.stage.hits.reverse = (p.pulseSlices flags).filterMap Grant.hit? := by
    rw [← hhits, ← hq]
    rfl
  have hpaused' : q.session.scheduler.paused =
      (p.pulseSlices flags).any (·.status.isBreakpoint) := by
    rw [← hpaused, ← hq]
    rfl
  split
  · have hreported := console_reportHits hhits' (by rw [← hq]; exact hacts.now) flags.json
    have hquiet : q.reportHits.Attentive := ⟨hattentive.registry, hattentive.onHit⟩
    obtain ⟨hsteps, hrunning⟩ :=
      stepsThrough_stepThrough hquiet rfl flags.json flags.options.budget
    have hlater : (stepThrough flags.options.budget q.reportHits).stage.sink.events =
        (stepSlices flags.options.budget q.reportHits).flatMap Grant.emitted :=
      hsteps.events.trans (congrArg (· ++ _) hdrained)
    refine ⟨⟨⟨hsteps.attentive.registry, hsteps.attentive.onHit⟩, rfl, hsteps.hits, hrunning⟩, ?_⟩
    rw [console_printEvents hlater, hsteps.console, hreported, hprinted]
    simp only [List.filterMap_append, List.map_append, Console.printLines_append]
  · rename_i hrunning
    have hnone : ∀ g ∈ p.pulseSlices flags, g.hit? = none := by
      intro g hg
      rw [hpaused', Bool.not_eq_true] at hrunning
      exact Grant.hit?_of_not_hit (Bool.eq_false_iff.2 (List.any_eq_false.1 hrunning g hg))
    have hnothing : q.stage.hits = [] :=
      List.reverse_eq_nil_iff.1 (hhits'.trans (List.filterMap_eq_nil_iff.2 hnone))
    have hlines : (p.pulseSlices flags).filterMap lineOf? = [] :=
      List.filterMap_eq_nil_iff.2 fun g hg => Option.map_eq_none_iff.2 (hnone g hg)
    refine ⟨⟨hattentive, hdrained, hnothing, Bool.eq_false_iff.2 hrunning⟩, ?_⟩
    rw [List.append_nil, hlines, List.append_nil, hprinted]
    exact congrArg _ (congrArg _ (List.append_nil _).symm)

/-- The loop prints the lines of its rounds. -/
theorem Clear.play {p : Performance} (h : p.Clear) (flags : RunFlags) (limit count : Nat) :
    (p.play flags limit count).1 = count + (p.rounds flags limit).length ∧
      (p.play flags limit count).2.console = p.console.printLines
        (((p.rounds flags limit).flatMap (·.lines flags)).map (Line.render flags.json)) ∧
      ∀ q ∈ p.rounds flags limit, q.Clear := by
  induction limit generalizing count p with
  | zero => exact ⟨rfl, rfl, fun q hq => absurd hq List.not_mem_nil⟩
  | succ limit ih =>
    rw [Performance.play, rounds]
    split
    · exact ⟨rfl, rfl, fun q hq => absurd hq List.not_mem_nil⟩
    · obtain ⟨hnext, hconsole⟩ := h.advance flags
      obtain ⟨hcount, hrest, hclear⟩ := ih hnext (count + 1)
      refine ⟨?_, ?_, List.forall_mem_cons.2 ⟨h, hclear⟩⟩
      · rw [hcount, List.length_cons, Nat.add_right_comm, Nat.add_assoc]
      · rw [hrest, hconsole, List.flatMap_cons, List.map_append, Console.printLines_append]

/-! ## Getting past a breakpoint -/

/-- The slice `next` gets the thread of `g`, as `g` left it at the breakpoint of a node, past that
breakpoint: it executes the instruction of the node that the thread was stopped before. -/
def GetsPast (m : Interpreter Stage) (g : Grant (Machine Stage)) (node : NodeId)
    (next : Grant (Machine Stage)) : Prop :=
  next.thread = g.after ∧ ∃ r i, m.program.routine? g.thread.routine = some r ∧
    Interpreter.fetch? r g.after.context = some i ∧ i.source = some node ∧
    next.instructions m = [i]

/-- A slice of a pulse that stops at a breakpoint leaves its thread in front. -/
theorem ready_of_hit {p : Performance} {flags : RunFlags} {g : Grant (Machine Stage)}
    (hg : g ∈ p.pulseSlices flags) (hhit : g.status.isBreakpoint = true) :
    ∃ queue, (p.pulse flags.options).session.scheduler.ready = g.after :: queue := by
  let x := p.roster.perform p.session.interpreter.executor
    (.pulse flags.options.pulse flags.options.budget)
  have hready : x.ready = Grant.those Status.isBreakpoint (p.pulseSlices flags) ++ _ ++ _ := rfl
  have hthose : Grant.those Status.isBreakpoint (p.pulseSlices flags) = [(g.number, g.after)] :=
    Executor.those_of_hit _ _ _ hg hhit
  have hqueue : (p.pulse flags.options).session.scheduler.ready = x.ready.map Prod.snd := by
    rw [pulse_eq]
    exact x.ready_eq.symm
  rw [hqueue, hready, hthose]
  exact ⟨_, rfl⟩

/-- A single step is a slice of the thread in front. -/
theorem slices_step {p : Performance} {t : Thread} {queue : List Thread}
    (h : p.session.scheduler.ready = t :: queue) : p.slices .step =
      [p.session.interpreter.executor.grant 1 p.session.scheduler.clock p.machine (0, t)] := by
  have hfirst : (p.roster.awake .step).ready.take 1 = [(0, t)] := by
    have hready : p.roster.ready = (0, t) :: queue.mapIdx fun i u => (i + 1, u) := by
      simp only [roster, Roster.of, h, List.mapIdx_cons]
    simp only [Roster.awake, Roster.wake, Roster.keep, hready, List.cons_append,
      List.take_succ_cons, List.take_zero]
  rw [← Executor.grants_singleton, ← hfirst]
  rfl

/-- **A breakpoint that stops a pulse is got past in the same round.** -/
theorem Clear.getsPast {p : Performance} (h : p.Clear) {flags : RunFlags}
    (hbudget : 1 ≤ flags.options.budget) {g : Grant (Machine Stage)} (hg : g ∈ p.pulseSlices flags)
    {node : NodeId} (hhit : g.status = .breakpoint node) :
    ∃ next later, p.laterSlices flags = next :: later ∧
      GetsPast p.session.interpreter g node next := by
  have hbreakpoint : g.status.isBreakpoint = true := by rw [hhit]; rfl
  obtain ⟨queue, hready⟩ := ready_of_hit hg hbreakpoint
  have hpaused : (p.pulse flags.options).session.scheduler.paused = true := by
    rw [paused_pulse h.running]
    exact List.any_eq_true.2 ⟨g, hg, hbreakpoint⟩
  have hof : g.IsOf p.session.interpreter.executor := Executor.isOf_of_mem_grants _ _ _ hg
  have hregistry : p.session.interpreter.registry.IgnoresParking := by
    rw [h.registry]
    exact Registry.ignoresParking_standard Stage
  have hstatus := (congrArg SliceEnd.status hof).symm.trans hhit
  obtain ⟨r, i, hr, hparked⟩ := Interpreter.parked_of_hit hregistry.neverStops hstatus
  have hcontext : g.after.context = (p.session.interpreter.slice g.world.breakpoints
      g.thread.routine g.thread.context g.budget g.now g.world.world).context :=
    congrArg SliceEnd.context hof
  rw [← hcontext] at hparked
  -- the reports between the pulse and the first step change neither queues nor breakpoints
  let q := ((p.pulse flags.options).printEvents flags.json).reportHits
  have hqueue : q.session.scheduler.ready = g.after :: queue := hready
  have hbusy : q.session.scheduler.isIdle = false := by rw [Scheduler.isIdle, hqueue]; rfl
  have hlater : p.laterSlices flags = stepSlices flags.options.budget q := if_pos hpaused
  obtain ⟨budget, hsucc⟩ := Nat.exists_eq_add_of_le' hbudget
  rw [hsucc, stepSlices, hbusy, slices_step hqueue] at hlater
  exact ⟨_, _, hlater, rfl, r, i, hr, hparked.fetch, hparked.source,
    hparked.answerInstructions hr _ q.session.scheduler.clock q.stage⟩

theorem clear_opening (p : Program) (flags : RunFlags) (c : Console) :
    (opening p flags c).Clear where
  registry := rfl
  onHit := rfl
  events := rfl
  hits := rfl
  running := congrArg Scheduler.paused (Session.threadsOf_eq p)

/-- The lines of a round tell of the breakpoints that its slices stopped at. -/
theorem hits_lines (p : Performance) (flags : RunFlags) :
    (p.lines flags).filterMap Line.hit? =
      (p.pulseSlices flags ++ p.laterSlices flags).filterMap fun g => g.hit?.map (·, g.now) := by
  have hevents : ∀ gs, (eventsOf gs).filterMap Line.hit? = [] := by
    intro gs
    rw [eventsOf, List.filterMap_map]
    exact List.filterMap_eq_nil_iff.2 fun e he => rfl
  rw [lines, List.filterMap_append, List.filterMap_append, hevents, hevents, List.append_nil,
    List.nil_append, List.filterMap_filterMap]
  refine List.filterMap_congr fun g _ => ?_
  rw [lineOf?]
  cases g.hit? <;> rfl

end Performance

/-- **The run command reports every breakpoint hit once and gets past it.** It prints the lines of
its rounds; their breakpoints are those that the slices of the rounds stopped at, in order, each
with the time of its slice. No round leaves the scheduler paused, and where a pulse stopped at a
breakpoint, the first of the single steps that follow executes the instruction behind it. -/
theorem run_reports_breakpoints (g : Graph) (flags : RunFlags)
    (hbudget : 1 ≤ flags.options.budget) :
    let compiled := compileGraph g .empty
    let first := Performance.opening compiled.1 flags compiled.2
    let rounds := first.rounds flags flags.options.maxPulses
    let lines := rounds.flatMap (·.lines flags)
    let slices := rounds.flatMap fun p => p.pulseSlices flags ++ p.laterSlices flags
    (first.play flags flags.options.maxPulses 0).1 = rounds.length ∧
      (runProgram compiled.1 flags compiled.2).console.out =
        String.join (lines.map fun line => line.render flags.json ++ "\n") ∧
      lines.filterMap Line.hit? = slices.filterMap (fun s => s.hit?.map (·, s.now)) ∧
      (∀ p ∈ rounds, (p.advance flags).session.scheduler.paused = false ∧
        ∀ s ∈ p.pulseSlices flags, ∀ node, s.status = .breakpoint node →
          ∃ next later, p.laterSlices flags = next :: later ∧
            Performance.GetsPast p.session.interpreter s node next) ∧
      ∀ path text, Graph.ofText text = .ok g →
        perform (.run path flags) (.ok text) = runProgram compiled.1 flags compiled.2 := by
  intro compiled first rounds lines slices
  have hfirst : first.Clear := Performance.clear_opening compiled.1 flags compiled.2
  obtain ⟨hcount, hconsole, hclear⟩ := hfirst.play flags flags.options.maxPulses 0
  refine ⟨?_, ?_, ?_, fun p hp => ⟨?_, fun s hs node hnode => ?_⟩, fun path text h => ?_⟩
  · rw [hcount, Nat.zero_add]
  · have hout : first.console.out = "" := out_compileGraph g
    rw [runProgram_eq compiled.1 flags compiled.2]
    simp only [Console.warnLine]
    rw [hconsole, Console.printLines_eq, hout, String.empty_append, List.map_map]
    rfl
  · simp only [lines, slices, List.filterMap_flatMap, Performance.hits_lines]
  · exact ((hclear p hp).advance flags).1.running
  · exact (hclear p hp).getsPast hbudget hs hnode
  · exact perform_run h path flags

/-- A run that stops before each note. -/
def stopAtPlay : RunFlags := ⟨⟨100, 20, 5⟩, ["play"], false⟩

/-- The beginning of such a run. -/
def rehearsal : Performance :=
  let (program, console) := compileGraph Lowering.playTwice .empty
  .opening program stopAtPlay console

theorem run_reports_breakpoints_playTwice :
    let text := (tableJson Lowering.playTwice.keyed.entries).render
    Graph.ofText text = .ok Lowering.playTwice ∧
      (perform (.run "tune.json" stopAtPlay) (.ok text)).console.out =
        String.join (((rehearsal.rounds stopAtPlay 20).flatMap (·.lines stopAtPlay)).map
          fun line => line.render false ++ "\n") ∧
      rehearsal ∈ rehearsal.rounds stopAtPlay 20 ∧
      (rehearsal.advance stopAtPlay).session.scheduler.paused = false ∧
      ∃ s ∈ rehearsal.pulseSlices stopAtPlay, s.status = .breakpoint "play" ∧
        ∃ next later, rehearsal.laterSlices stopAtPlay = next :: later ∧
          Performance.GetsPast rehearsal.session.interpreter s "play" next := by
  intro text
  have htext : Graph.ofText text = .ok Lowering.playTwice :=
    Graph.ofText_tableJson (by decide) (by decide)
  have hmem : rehearsal ∈ rehearsal.rounds stopAtPlay 20 := by
    have hbusy : rehearsal.session.scheduler.isIdle = false := by decide +kernel
    rw [Performance.rounds, hbusy]
    exact List.mem_cons_self
  have hslices : (rehearsal.pulseSlices stopAtPlay).map Grant.hit? = [some "play"] := by
    decide +kernel
  obtain ⟨s, hs, hhit⟩ := List.mem_map.1 (hslices ▸ List.mem_singleton_self (some "play"))
  have hstatus := Grant.hit?_eq_some_iff.1 hhit
  obtain ⟨-, hout, -, hrounds, hperform⟩ :=
    run_reports_breakpoints Lowering.playTwice stopAtPlay (by decide)
  obtain ⟨hrunning, hpast⟩ := hrounds rehearsal hmem
  refine ⟨htext, ?_, hmem, hrunning, s, hs, hstatus, hpast s hs "play" hstatus⟩
  rw [hperform "tune.json" text htext]
  exact hout

end Command

end TuneBlocks
