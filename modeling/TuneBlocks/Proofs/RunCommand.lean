import TuneBlocks.Command.Perform
import TuneBlocks.Proofs.Compiled
import TuneBlocks.Proofs.Lifecycle

/-!
# The run command

A graph that can be read is always run, and the run always ends well: its program passes the check
(`Lowering.violations_compile`), and the hooks of the standard blocks succeed. What the command
writes is therefore what its performance has written in the end, with a last line that sums the
performance up (`Command.perform_run`).
-/

namespace TuneBlocks

namespace Console

/-- Prints lines one after the other. -/
def printLines (c : Console) (lines : List String) : Console := lines.foldl printLine c

theorem printLines_append (c : Console) (l l' : List String) :
    c.printLines (l ++ l') = (c.printLines l).printLines l' :=
  List.foldl_append

theorem printLines_eq (c : Console) (lines : List String) :
    c.printLines lines = { c with out := c.out ++ String.join (lines.map (· ++ "\n")) } := by
  induction lines generalizing c with
  | nil => simp [printLines]
  | cons line lines ih =>
    have hfirst : c.printLines (line :: lines) = (c.printLine line).printLines lines := rfl
    rw [hfirst, ih]
    simp [printLine, print, String.append_assoc, String.join_cons]

end Console

namespace Command

/-- The line of a breakpoint. -/
def hitLine (node : NodeId) (time : Float) : String :=
  "breakpoint " ++ node ++ " at t=" ++ NumberFormat.display.render time

/-- Remembers a breakpoint for the next report. -/
def Stage.note (node : NodeId) (w : Stage) : Stage := { w with hits := node :: w.hits }

/-- What a scheduler is to do about a breakpoint. -/
def Stage.told (node : NodeId) (v : Machine Stage) : Machine Stage :=
  { v with world := v.world.note node }

namespace Performance

theorem printEvents_eq (p : Performance) (json : Bool) : p.printEvents json =
    { p with
      stage := { p.stage with sink := p.stage.sink.drained }
      console := p.console.printLines (p.stage.sink.events.map (eventLine json)) } := by
  rw [Console.printLines, List.foldl_map]
  rfl

theorem reportHits_eq (p : Performance) : p.reportHits =
    { p with
      stage := { p.stage with hits := [] }
      console := p.console.printLines
        (p.stage.hits.reverse.map (hitLine · p.session.scheduler.clock)) } := by
  rw [Console.printLines, List.foldl_map]
  rfl

/-- A run that is about to begin. -/
def opening (p : Program) (flags : RunFlags) (c : Console) : Performance where
  session :=
    ((Session.fresh ⟨p, .standard Stage⟩).setBreakpoints flags.breakpoints).onHit Stage.note
  stage := ⟨{ Sink.new with isOpen := true }, []⟩
  console := c

theorem stepThrough_interpreter (steps : Nat) (p : Performance) :
    (p.stepThrough steps).session.interpreter = p.session.interpreter := by
  induction steps generalizing p with
  | zero => rfl
  | succ steps ih =>
    unfold stepThrough
    split
    · rfl
    · exact ih _

theorem advance_interpreter (p : Performance) (flags : RunFlags) :
    (p.advance flags).session.interpreter = p.session.interpreter := by
  unfold advance
  dsimp only
  split
  · exact stepThrough_interpreter _ _
  · rfl

theorem play_interpreter (flags : RunFlags) (limit count : Nat) (p : Performance) :
    (p.play flags limit count).2.session.interpreter = p.session.interpreter := by
  induction limit generalizing count p with
  | zero => rfl
  | succ limit ih =>
    unfold play
    split
    · rfl
    · exact (ih _ _).trans (advance_interpreter p flags)

end Performance

theorem finish_standard {s : Session Stage} (h : s.interpreter.registry = .standard Stage)
    (w : Stage) : s.finish w =
      (.ok (), { s with finished := true }, { w with sink := w.sink.closed }) := by
  rw [Session.finish, h]
  rfl

/-- A run goes on until its performance is over, and succeeds. -/
theorem runProgram_eq (p : Program) (flags : RunFlags) (c : Console) :
    let (pulses, q) := Performance.play flags flags.options.maxPulses 0 (.opening p flags c)
    runProgram p flags c = ⟨q.console.warnLine (q.summary pulses), 0⟩ := by
  have hstart : Session.start ⟨p, .standard Stage⟩ ⟨.new, []⟩ =
      (.ok (.fresh ⟨p, .standard Stage⟩), (Performance.opening p flags c).stage) := rfl
  have hopening : Performance.mk
      (((Session.fresh ⟨p, .standard Stage⟩).setBreakpoints flags.breakpoints).onHit
        fun node w => { w with hits := node :: w.hits })
      (Performance.opening p flags c).stage c = .opening p flags c := rfl
  have hregistry := congrArg Interpreter.registry
    (Performance.play_interpreter flags flags.options.maxPulses 0 (.opening p flags c))
  simp only [runProgram, hstart, hopening, finish_standard hregistry]

theorem out_warnLines (c : Console) (lines : List String) : (c.warnLines lines).out = c.out := by
  induction lines generalizing c with
  | nil => rfl
  | cons line lines ih => exact (ih _).trans rfl

/-- Compiling writes warnings only. -/
theorem out_compileGraph (g : Graph) : (compileGraph g .empty).2.out = "" := by
  simp only [compileGraph, out_warnLines]
  split <;> rfl

/-- **The run command** on a graph. -/
theorem perform_run {text : String} {g : Graph} (h : Graph.ofText text = .ok g) (path : String)
    (flags : RunFlags) : perform (.run path flags) (.ok text) =
      runProgram (compileGraph g .empty).1 flags (compileGraph g .empty).2 := by
  have hread : readGraph path (.ok text) .empty = .ok g := by simp only [readGraph, h]
  have hcheck : ∀ c, checkProgram (compileGraph g .empty).1 c = .ok () := by
    intro c
    have hviolations : (compileGraph g .empty).1.violations = [] :=
      Lowering.violations_compile Stage g _
    simp only [checkProgram, hviolations]
  simp only [perform, Command.path, hread, bind, Except.bind, hcheck]
  rfl

end Command

end TuneBlocks
