import TuneBlocks.Proofs.Documents
import TuneBlocks.Proofs.Isolation
import TuneBlocks.Proofs.Meaning
import TuneBlocks.Proofs.RunCommand
import TuneBlocks.Proofs.SharedSink

/-!
# The run command and runs

The run command has a loop of its own: it takes the events out of the sink after each pulse, and
gets past breakpoints by single steps. Where there are no breakpoints it is in step with
`Interpreter.runProgram` (`Command.InStep.play`), and what it writes is said by the report and the
sink of such a run (`Command.run_agrees_with_runProgram`).
-/

namespace TuneBlocks

/-- The line for a run that went as reported and left some threads behind. -/
def RunReport.summary (r : RunReport) (live : Nat) : String :=
  let time := NumberFormat.display.render r.time
  if r.finished then "finished after " ++ toString r.pulses ++ " pulses at t=" ++ time
  else
    "stopped after " ++ toString r.pulses ++ " pulses at t=" ++ time ++ " with " ++
      toString live ++ " threads live"

namespace Command

/-- The stage has a sink without the events that have been taken out. -/
def Stage.Lacks (taken : List Event) (w : Stage) (v : Sink) : Prop :=
  v = { w.sink with recorded := w.sink.recorded ++ taken }

theorem Stage.Lacks.emit {taken : List Event} {w : Stage} {v : Sink} (h : w.Lacks taken v)
    (e : Event) : (HasSink.emit w e).Lacks taken (HasSink.emit v e) := by
  subst h
  rfl

/-- The standard blocks do the same to a stage as to a sink. -/
theorem standard_mirrors (taken : List Event) :
    (Registry.standard Stage).Mirrors (Stage.Lacks taken) (Registry.standard Sink) := by
  intro name
  rw [Registry.handler?_standard, Registry.handler?_standard]
  split
  · exact .some fun args now c w v h => .next (h.emit _)
  split
  · exact .some fun args now c w v h => .next (h.emit _)
  split
  · exact .some fun args now c w v h => .next h
  split
  · exact .some fun args now c w v h => .stop ⟨rfl, rfl, h⟩
  split
  · exact .some fun args now c w v h => .stop ⟨rfl, rfl, h⟩
  split
  · exact .some fun args now c w v h => .stop ⟨rfl, rfl, h.emit _⟩
  · exact .none

/-- A performance and a session in the same state, where the performance has printed the events of
the session's sink. -/
structure InStep (json : Bool) (c : Console) (p : Performance) (s : Session Sink) (v : Sink) :
    Prop where
  program : p.session.interpreter.program = s.interpreter.program
  registry : p.session.interpreter.registry = .standard Stage
  registry' : s.interpreter.registry = .standard Sink
  breakpoints : p.session.breakpoints = []
  breakpoints' : s.breakpoints = []
  onHit : p.session.scheduler.onHit = some Stage.told
  onHit' : s.scheduler.onHit = none
  running : p.session.scheduler.paused = false
  queues : Scheduler.Mirrors (Machine.Mirrors [] (Stage.Lacks v.recorded)) p.session.scheduler
    ⟨[], p.stage⟩ s.scheduler ⟨[], v⟩
  console : p.console = c.printLines (v.events.map (eventLine json))

namespace InStep

variable {flags : RunFlags} {c : Console} {p : Performance} {s : Session Sink} {v : Sink}

/-- The breakpoints that a performance is told of do not concern its sink. -/
theorem tellsAlike (h : InStep flags.json c p s v) (taken : List Event) :
    Scheduler.TellsAlike (Machine.Mirrors [] (Stage.Lacks taken)) p.session.scheduler
      s.scheduler := by
  intro node x y hxy
  simp only [Scheduler.tell, h.onHit, h.onHit']
  exact ⟨hxy.left, hxy.right, hxy.world⟩

theorem pulse (h : InStep flags.json c p s v) :
    let o := flags.options
    InStep flags.json c ((p.pulse o).printEvents flags.json) (s.pulse o.pulse o.budget v).1
      (s.pulse o.pulse o.budget v).2 := by
  intro o
  have hexecutor : p.session.interpreter.executor.Mirrors
      (Machine.Mirrors [] (Stage.Lacks v.recorded)) s.interpreter.executor := by
    refine Interpreter.executor_mirrors h.program ?_ []
    rw [h.registry, h.registry']
    exact standard_mirrors v.recorded
  have hsteady : p.session.interpreter.executor.Steady (·.breakpoints = []) := by
    apply Interpreter.executor_steady
    rw [h.registry]
    exact Registry.steady_standard Stage
  have hqueues := h.queues.pulse hexecutor (h.tellsAlike v.recorded) o.pulse o.budget
  have hrunning := (Scheduler.paused_pulse hsteady o.pulse o.budget p.session.scheduler
    (w := ⟨[], p.stage⟩) rfl).trans h.running
  have honHit := Scheduler.onHit_pulse p.session.interpreter.executor o.pulse o.budget
    p.session.scheduler ⟨[], p.stage⟩
  have honHit' := Scheduler.onHit_pulse s.interpreter.executor o.pulse o.budget
    s.scheduler ⟨[], v⟩
  simp only [Performance.printEvents_eq, Performance.pulse, Session.pulse, Session.update,
    h.breakpoints, h.breakpoints']
  generalize p.session.scheduler.pulse _ o.pulse o.budget ⟨[], p.stage⟩ = x at *
  generalize s.scheduler.pulse _ o.pulse o.budget ⟨[], v⟩ = y at *
  obtain ⟨hready, hasleep, hclock, hpaused, hleft, hright, hworld⟩ := hqueues
  -- the new events are those that the sink of the stage has now
  have hevents : y.2.world.events = v.events ++ x.2.world.sink.events := by
    rw [hworld, Sink.events, List.reverse_append]
    rfl
  have hdrained : Stage.Lacks y.2.world.recorded
      { x.2.world with sink := x.2.world.sink.drained } y.2.world := by
    rw [hworld]
    rfl
  exact {
    program := h.program
    registry := h.registry
    registry' := h.registry'
    breakpoints := hleft
    breakpoints' := hright
    onHit := honHit.trans h.onHit
    onHit' := honHit'.trans h.onHit'
    running := hrunning
    queues := ⟨hready, hasleep, hclock, hpaused, rfl, rfl, hdrained⟩
    console := by rw [h.console, hevents, List.map_append, Console.printLines_append] }

theorem advance (h : InStep flags.json c p s v) :
    let o := flags.options
    InStep flags.json c (p.advance flags) (s.pulse o.pulse o.budget v).1
      (s.pulse o.pulse o.budget v).2 := by
  have hpulse := h.pulse
  have hadvance : p.advance flags = (p.pulse flags.options).printEvents flags.json := by
    rw [Performance.advance]
    exact if_neg (Bool.eq_false_iff.1 hpulse.running)
  rw [hadvance]
  exact hpulse

/-- **The loops stay in step**, and make the same number of pulses. -/
theorem play (flags : RunFlags) (h : InStep flags.json c p s v) (limit count : Nat) :
    let o := flags.options
    (p.play flags limit count).1 = (s.runPulses o.pulse o.budget limit count v).1 ∧
      InStep flags.json c (p.play flags limit count).2
        (s.runPulses o.pulse o.budget limit count v).2.1
        (s.runPulses o.pulse o.budget limit count v).2.2 := by
  induction limit generalizing count p s v with
  | zero => exact ⟨rfl, h⟩
  | succ limit ih =>
    have hidle : p.session.scheduler.isIdle = s.scheduler.isIdle := h.queues.isIdle
    simp only [Performance.play, Session.runPulses, hidle]
    split
    · exact ⟨rfl, h⟩
    · exact ih h.advance (count + 1)

/-- A run is in step with the session from the start. -/
theorem opening (p : Program) (o : RunOptions) (json : Bool) (c : Console) :
    InStep json c (.opening p ⟨o, [], json⟩ c) (.fresh ⟨p, .standard Sink⟩)
      { Sink.new with isOpen := true } where
  program := rfl
  registry := rfl
  registry' := rfl
  breakpoints := rfl
  breakpoints' := rfl
  onHit := rfl
  onHit' := congrArg Scheduler.onHit (Session.threadsOf_eq p)
  running := congrArg Scheduler.paused (Session.threadsOf_eq p)
  queues := by
    simp only [Performance.opening, Session.onHit, Session.setBreakpoints, Session.fresh,
      Session.threadsOf_eq]
    exact ⟨rfl, rfl, rfl, rfl, rfl, rfl, rfl⟩
  console := rfl

end InStep

theorem summary_eq (p : Performance) (pulses : Nat) : p.summary pulses =
    RunReport.summary ⟨pulses, p.session.scheduler.clock, p.session.scheduler.isIdle⟩
      p.session.scheduler.threads.length := by
  simp only [Performance.summary, RunReport.summary, Scheduler.threads, List.length_append,
    List.length_map]

/-- What is compiled does not depend on what it is run in. -/
theorem program_compileGraph (σ : Type) [HasSink σ] (g : Graph) (c : Console) :
    (compileGraph g c).1 =
      (Lowering.machineOf σ g (g.startNodes startType)).program := by
  have hrules : (Registry.standard Stage).rules = (Registry.standard σ).rules :=
    funext fun type => (Lowering.rules_standard Stage type).trans
      (Lowering.rules_standard σ type).symm
  rw [compileGraph, hrules]
  rfl

/-- **The run command plays what a run of the program plays.** Without breakpoints it makes as many
pulses as `Interpreter.runProgram` reports, ends at the same time and with the same verdict, prints
the events that are left in the sink of the run, and succeeds, as the run does. -/
theorem run_agrees_with_runProgram (g : Graph) (o : RunOptions) (json : Bool) :
    let flags : RunFlags := ⟨o, [], json⟩
    let compiled := compileGraph g .empty
    let played := Performance.play flags o.maxPulses 0 (.opening compiled.1 flags compiled.2)
    let scheduler := played.2.session.scheduler
    let report : RunReport := ⟨played.1, scheduler.clock, scheduler.isIdle⟩
    ∃ sink,
      (Lowering.machineOf Sink g (g.startNodes startType)).runProgram o .new = (.ok report, sink) ∧
      runProgram compiled.1 flags compiled.2 =
        ⟨⟨String.join (sink.events.map fun e => eventLine json e ++ "\n"),
          compiled.2.err ++ report.summary scheduler.threads.length ++ "\n"⟩, 0⟩ ∧
      ∀ path text, Graph.ofText text = .ok g →
        perform (.run path flags) (.ok text) = runProgram compiled.1 flags compiled.2 := by
  intro flags compiled
  have hout : compiled.2.out = "" := out_compileGraph g
  have hmachine : Lowering.machineOf Sink g (g.startNodes startType) =
      ⟨compiled.1, .standard Sink⟩ := by
    rw [program_compileGraph Sink]
    rfl
  obtain ⟨hpulses, hstep⟩ := (InStep.opening compiled.1 o json compiled.2).play flags o.maxPulses 0
  have hwritten := runProgram_eq compiled.1 flags compiled.2
  have hrun := Registry.runProgram_standard compiled.1 o
  rw [hmachine]
  simp only [flags] at *
  generalize Performance.play _ _ _ _ = x at *
  generalize Session.runPulses _ _ _ _ _ _ = y at *
  obtain ⟨pulses, p⟩ := x
  obtain ⟨pulses', s, v⟩ := y
  simp only at *
  refine ⟨v.closed, ?_, ?_, fun path text h => perform_run h path flags⟩
  · rw [hrun, hpulses, hstep.queues.clock, hstep.queues.isIdle]
  · have hevents : v.closed.events = v.events := rfl
    rw [hwritten, summary_eq, hstep.console, Console.printLines_eq, hout, hevents, List.map_map]
    simp [Console.warnLine, Function.comp_def]

theorem run_agrees_with_runProgram_playTwice :
    let text := (tableJson Lowering.playTwice.keyed.entries).render
    let m := Lowering.machineOf Sink Lowering.playTwice (Lowering.playTwice.startNodes startType)
    Graph.ofText text = .ok Lowering.playTwice ∧
      ∃ report sink live, m.runProgram ⟨100, 20, 5⟩ .new = (.ok report, sink) ∧
        perform (.run "tune.json" ⟨⟨100, 20, 5⟩, [], false⟩) (.ok text) =
          ⟨⟨String.join (sink.events.map fun e => eventLine false e ++ "\n"),
            (compileGraph Lowering.playTwice .empty).2.err ++ report.summary live ++ "\n"⟩, 0⟩ := by
  intro text m
  have htext : Graph.ofText text = .ok Lowering.playTwice :=
    Graph.ofText_tableJson (by decide) (by decide)
  obtain ⟨sink, hrun, hwritten, hperform⟩ :=
    run_agrees_with_runProgram Lowering.playTwice ⟨100, 20, 5⟩ false
  exact ⟨htext, _, sink, _, hrun, (hperform "tune.json" text htext).trans hwritten⟩

end Command

end TuneBlocks
