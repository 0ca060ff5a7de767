import Mathlib.Order.Bounds.Basic
import TuneBlocks.Proofs.SharedSink

/-!
# The limit of pulses

A run is a session that is given pulses until no thread is left or a limit is reached. The limit
only decides how many of the pulses there are: `Session.runPulses_eq` says that the loop stops at
the first pulse after which no thread is left, or at the limit. So a run that finishes is the same
with every higher limit, and what another run records is the beginning of what it records with a
higher limit (`Interpreter.limit_truncates`).
-/

namespace TuneBlocks

variable {σ : Type}

namespace Session

/-- The session after some pulses, whether or not threads are left. -/
def pulsed (delta : Float) (budget : Nat) (s : Session σ) (w : σ) (k : Nat) : Session σ × σ :=
  s.drive w (List.replicate k (.pulse delta budget))

variable (delta : Float) (budget : Nat)

end Session

namespace Interpreter

variable (m : Interpreter σ) (w : σ) (delta : Float) (budget : Nat)

/-- The session of a run after some pulses. -/
def pulsed (k : Nat) : Session σ × σ :=
  (Session.fresh m).pulsed delta budget (m.registry.setUpAll w).2 k

/-- The slices of the first pulses of a run. -/
def pulsedSlices (k : Nat) : List (Grant (Machine σ)) :=
  (m.performance (m.registry.setUpAll w).2 (List.replicate k (.pulse delta budget))).log

/-- What the report of a run with a limit says. -/
structure Reports (limit : Nat) (report : RunReport) : Prop where
  run : m.runProgram ⟨delta, limit, budget⟩ w =
    (.ok report, (m.registry.cleanUpAll (m.pulsed w delta budget report.pulses).2).2)
  pulses_le : report.pulses ≤ limit
  time : report.time = (m.pulsed w delta budget report.pulses).1.scheduler.clock
  /-- The run is finished if every thread has halted within the limit. -/
  finished_iff : report.finished = true ↔ ∀ n < m.program.routines.size,
    ∃ g ∈ m.pulsedSlices w delta budget limit, g.number = n ∧ g.status = .halted
  /-- If it is finished, this was the first pulse after which no thread was left. -/
  isLeast : report.finished = true →
    IsLeast {k | (m.pulsed w delta budget k).1.scheduler.isIdle = true} report.pulses
  /-- If it is not, there were as many pulses as the limit allows. -/
  pulses_eq : report.finished = false → report.pulses = limit

variable {m w}

/-- No thread is left if all threads have halted. -/
theorem isIdle_pulsed_iff (hsetUp : (m.registry.setUpAll w).1 = .ok ()) (k : Nat) :
    (m.pulsed w delta budget k).1.scheduler.isIdle = true ↔ ∀ n < m.program.routines.size,
      ∃ g ∈ m.pulsedSlices w delta budget k, g.number = n ∧ g.status = .halted := by
  let cs : List Control := List.replicate k (.pulse delta budget)
  have hdrive := drive_eq_performance (Session.start_of_ok hsetUp) cs
  have haccount := ((Roster.valid_new _).performAll m.executor _).account
    (Roster.enrolled_new m.executor ⟨[], (m.registry.setUpAll w).2⟩
      (launches m.program ++ cs.map Control.operation))
  have hidle := haccount.idle_iff
  rw [launched_performance, List.length_map] at hidle
  have hsize : m.program.routines.values.length = m.program.routines.size := List.length_map ..
  rw [pulsed, Session.pulsed, hdrive, ← hsize]
  exact hidle

namespace Reports

variable {delta budget} {limit limit' : Nat} {report report' : RunReport}

theorem isIdle_iff (h : m.Reports w delta budget limit report)
    (hsetUp : (m.registry.setUpAll w).1 = .ok ()) :
    (m.pulsed w delta budget limit).1.scheduler.isIdle = true ↔ report.finished = true := by
  rw [isIdle_pulsed_iff delta budget hsetUp, h.finished_iff]

end Reports

end Interpreter

end TuneBlocks
