import TuneBlocks.Proofs.NoteLoop
import TuneBlocks.Proofs.SharedSink

/-!
# When notes are played

A note that is repeated sounds again in the first pulse that is not before its end. `Due` says in
which pulse each pass comes up, by the times of the pulses alone, and `NoteLoop.Plays.pulse` that a
session keeps to it pulse by pulse. So a run plays exactly the notes that are due in it, and halts
in the pulse in which the first note that is not to be played would be due
(`Graph.RepeatsNote.plays_on_time`).
-/

namespace TuneBlocks

/-! ## Pulses with one thread -/

namespace Scheduler

variable {σ : Type} {ex : Executor σ} {s : Scheduler σ} {t : Thread} {delta : Float} {budget : Nat}
  {w : σ}

theorem pulse_of_none_ready (hready : (s.tick delta).ready = []) :
    s.pulse ex delta budget w = (s.tick delta, w) := by
  rw [pulse_eq]
  generalize s.tick delta = q at hready
  obtain ⟨ready, asleep, clock, paused, onHit⟩ := q
  obtain rfl : ready = [] := hready
  split
  · rfl
  · simp only [Executor.pass, afterPass, Pass.readyOf, Pass.sleepersOf, List.filterMap_nil,
      List.append_nil]

/-- A pulse with one thread awake and none asleep does what a slice of that thread does. -/
theorem pulse_of_one_ready {status : Status} {c : Context} {w' : σ} (hrunning : s.paused = false)
    (hready : (s.tick delta).ready = [t]) (hasleep : (s.tick delta).asleep = [])
    (hslice : ex.slice t.id t.routine t.context budget (s.tick delta).clock w = ⟨status, c, w'⟩)
    (hstatus : ∀ node, status ≠ .breakpoint node) :
    s.pulse ex delta budget w = ({ s.tick delta with
      ready := Pass.readyOf [({ t with context := c }, status)]
      asleep := Pass.sleepersOf [({ t with context := c }, status)] }, w') := by
  rw [pulse_eq, hready, hrunning, Bool.false_and, if_neg Bool.false_ne_true]
  cases status with
  | breakpoint node => exact absurd rfl (hstatus node)
  | _ => simp only [Executor.pass, hslice, afterPass, hasleep, List.nil_append]

end Scheduler

/-! ## Times -/

/-- The time after a number of pulses. -/
def pulseTime (dt : Float) : Nat → Float
  | 0 => 0
  | j + 1 => pulseTime dt j + dt

/-- In the `j`-th pulse the pass `k` of a loop comes up: the first pass in the first pulse, and each
other pass in the first pulse that is not before the end of the note of the pass before, if that was
played. A note lasts for `d`, and it is played if the passes before it are less than `x`. -/
inductive Due (dt d x : Float) : (k j : Nat) → Prop
  | first : Due dt d x 0 1
  | next : Due dt d x k j → passCount k < x → j < j' → pulseTime dt j + d ≤ pulseTime dt j' →
      (∀ i, j < i → i < j' → ¬ pulseTime dt j + d ≤ pulseTime dt i) → Due dt d x (k + 1) j'

namespace Due

variable {dt d x : Float} {k k' j j' : Nat}

theorem unique (h : Due dt d x k j) (h' : Due dt d x k j') : j = j' := by
  induction h generalizing j' with
  | first =>
    cases h'
    rfl
  | @next k j i _ _ hlt hdue hleast ih =>
    cases h' with
    | @next _ j₀ _ h₀ _ hlt' hdue' hleast' =>
      obtain rfl := ih h₀
      rcases Nat.lt_trichotomy i j' with hij | hij | hij
      · exact absurd hdue (hleast' i hlt hij)
      · exact hij
      · exact absurd hdue' (hleast j' hlt' hij)

/-- The passes before one that comes up have come up earlier, and their notes were played. -/
theorem before (h : Due dt d x k j) (hk : k' < k) :
    ∃ j' < j, Due dt d x k' j' ∧ passCount k' < x := by
  induction h with
  | first => exact absurd hk (Nat.not_lt_zero k')
  | @next k j i hdue hcount hlt _ _ ih =>
    rcases Nat.lt_succ_iff_lt_or_eq.1 hk with hk | rfl
    · obtain ⟨j', hj', hdue', hcount'⟩ := ih hk
      exact ⟨j', Nat.lt_trans hj' hlt, hdue', hcount'⟩
    · exact ⟨j, hlt, hdue, hcount⟩

theorem exists_le (h : Due dt d x k j) (hk : k' ≤ k) : ∃ j' ≤ j, Due dt d x k' j' := by
  rcases Nat.lt_or_eq_of_le hk with hlt | rfl
  · obtain ⟨j', hj', hdue, -⟩ := h.before hlt
    exact ⟨j', Nat.le_of_lt hj', hdue⟩
  · exact ⟨j, Nat.le_refl j, h⟩

/-- No pass comes up after one whose note is not played. -/
theorem le_last (h : Due dt d x k j) (hlast : ¬ passCount k' < x) : k ≤ k' := by
  refine Nat.not_lt.1 fun hlt => ?_
  obtain ⟨-, -, -, hcount⟩ := h.before hlt
  exact hlast hcount

end Due

/-- A run of at most `n` pulses that plays the note `pitch k` of each pass `k`, with duration `d`,
in the pulse `onsets[k]`. -/
structure KeepsTime (dt d x : Float) (pitch : Nat → String) (n : Nat) (report : RunReport)
    (sink : Sink) (onsets : List Nat) : Prop where
  events : sink.events = onsets.mapIdx fun k j => .note (pitch k) d (pulseTime dt j)
  /-- The notes of the passes that come up in the run and are to be played are played, and no
  others. -/
  onsets_iff : ∀ k j, onsets[k]? = some j ↔ j ≤ n ∧ Due dt d x k j ∧ passCount k < x
  /-- There are not more notes than passes, and as many if the run is long enough for all. -/
  count : ∀ passes, ¬ passCount passes < x → (∀ k < passes, passCount k < x) →
    onsets.length ≤ passes ∧ (onsets.length = passes ↔ ∀ k < passes, ∃ j ≤ n, Due dt d x k j)
  /-- The thread halts if a pass comes up in the run whose note is not to be played, -/
  finished_iff : report.finished = true ↔ ∃ k j, j ≤ n ∧ Due dt d x k j ∧ ¬ passCount k < x
  /-- and it does so in that pulse. -/
  pulses_of_last : ∀ k j, j ≤ n → Due dt d x k j → ¬ passCount k < x → report.pulses = j
  pulses_of_live : report.finished = false → report.pulses = n
  time : report.time = pulseTime dt report.pulses

/-! ## Sessions -/

namespace NoteLoop

variable {r : Routine}

/-- Where the thread is after `i` pulses, when it has come to the pass `k`: about to start, asleep
behind the note of the pass before, or halted. -/
inductive Phase (l : NoteLoop r) (routine : String) (dt : Float) :
    (i k : Nat) → List Thread → List Sleeper → Prop
  | first : t.routine = routine → t.context.position = l.place 0 →
      Phase l routine dt 0 0 [t] []
  | asleep : Due dt l.duration l.bound k j → passCount k < l.bound → j ≤ i →
      (∀ i', j < i' → i' ≤ i → ¬ pulseTime dt j + l.duration ≤ pulseTime dt i') →
      t.routine = routine → t.context.position = l.place (k + 1) →
      Phase l routine dt i (k + 1) [] [⟨t, pulseTime dt j + l.duration⟩]
  | halted : Due dt l.duration l.bound k i → ¬ passCount k < l.bound → Phase l routine dt i k [] []

namespace Phase

variable {l : NoteLoop r} {routine : String} {dt : Float} {i j k : Nat} {ready : List Thread}
  {asleep : List Sleeper}

/-- A thread that has not halted is still to come to its next pass. -/
theorem lt_of_due (h : l.Phase routine dt i k ready asleep)
    (hlive : (ready.isEmpty && asleep.isEmpty) = false)
    (hdue : Due dt l.duration l.bound k j) : i < j := by
  cases h with
  | first =>
    cases hdue
    exact Nat.one_pos
  | asleep hlast _ _ hwaits =>
    cases hdue with
    | next hlast' _ hlt hend _ =>
      obtain rfl := hlast.unique hlast'
      exact Nat.not_le.1 fun hle => hwaits j hlt hle hend
  | halted => cases hlive

theorem of_halted (h : l.Phase routine dt i k ready asleep)
    (hidle : (ready.isEmpty && asleep.isEmpty) = true) :
    Due dt l.duration l.bound k i ∧ ¬ passCount k < l.bound := by
  cases h with
  | halted hdue hlast => exact ⟨hdue, hlast⟩
  | first | asleep => cases hidle

end Phase

/-- After `i` pulses the thread of a session has come to the pass `k`, and its notes were played in
the pulses `onsets`. -/
structure Plays (l : NoteLoop r) (m : Interpreter Sink) (routine : String) (dt : Float)
    (i : Nat) (s : Session Sink) (v : Sink) (k : Nat) (onsets : List Nat) : Prop where
  interpreter : s.interpreter = m
  breakpoints : s.breakpoints = []
  running : s.scheduler.paused = false
  clock : s.scheduler.clock = pulseTime dt i
  phase : l.Phase routine dt i k s.scheduler.ready s.scheduler.asleep
  length : onsets.length = k
  due : ∀ k' j, onsets[k']? = some j →
    Due dt l.duration l.bound k' j ∧ passCount k' < l.bound ∧ j ≤ i
  events : v.events = onsets.mapIdx fun k j => .note (l.pitchAt k) l.duration (pulseTime dt j)

namespace Plays

variable {l : NoteLoop r} {m : Interpreter Sink} {routine : String} {dt : Float} {budget i k : Nat}
  {s : Session Sink} {v : Sink} {onsets : List Nat} {t : Thread}

/-- A session with one thread that has not run yet. -/
theorem fresh (hthread : m.program.routines.values = [r]) :
    l.Plays m r.name dt 0 (.fresh m) { Sink.new with isOpen := true } 0 [] := by
  have hthreads : (Session.fresh m).scheduler =
      { Scheduler.new with ready := [⟨r.name, r.name, .start r.name r.entry⟩] } := by
    rw [Session.fresh, Session.threadsOf_eq, hthread]
    rfl
  refine ⟨rfl, rfl, congrArg Scheduler.paused hthreads, congrArg Scheduler.clock hthreads, ?_, rfl,
    fun _ _ h => ?_, rfl⟩
  · rw [hthreads]
    exact .first rfl rfl
  · cases h

theorem due_succ (h : l.Plays m routine dt i s v k onsets) {k' j : Nat}
    (hj : onsets[k']? = some j) :
    Due dt l.duration l.bound k' j ∧ passCount k' < l.bound ∧ j ≤ i + 1 := by
  obtain ⟨hdue, hcount, hle⟩ := h.due k' j hj
  exact ⟨hdue, hcount, Nat.le_succ_of_le hle⟩

/-- A pulse that no thread is awake for. -/
theorem pulse_asleep (h : l.Plays m routine dt i s v k onsets)
    (hready : (s.scheduler.tick dt).ready = [])
    (hphase : l.Phase routine dt (i + 1) k [] (s.scheduler.tick dt).asleep) :
    l.Plays m routine dt (i + 1) (s.pulse dt budget v).1 (s.pulse dt budget v).2 k onsets := by
  have hclock : (s.scheduler.tick dt).clock = pulseTime dt (i + 1) :=
    congrArg (· + dt) h.clock
  simp only [Session.pulse, Session.update, Scheduler.pulse_of_none_ready hready]
  exact ⟨h.interpreter, h.breakpoints, h.running, hclock, hready ▸ hphase, h.length,
    fun _ _ => h.due_succ, h.events⟩

/-- A pulse in which the thread is awake for its next pass. -/
theorem pulse_awake (hregistry : m.registry = .standard Sink)
    (hr : m.program.routine? routine = some r) (hbudget : 5 ≤ budget)
    (h : l.Plays m routine dt i s v k onsets) (hready : (s.scheduler.tick dt).ready = [t])
    (hasleep : (s.scheduler.tick dt).asleep = []) (hroutine : t.routine = routine)
    (hplace : t.context.position = l.place k) (hdue : Due dt l.duration l.bound k (i + 1)) :
    ∃ k' onsets', l.Plays m routine dt (i + 1) (s.pulse dt budget v).1 (s.pulse dt budget v).2 k'
      onsets' := by
  have hclock : (s.scheduler.tick dt).clock = pulseTime dt (i + 1) :=
    congrArg (· + dt) h.clock
  have hpulse : ∀ status c u, Interpreter.run (.standard Sink) r [] (pulseTime dt (i + 1)) budget
        t.context v = ⟨status, c, u⟩ → (∀ node, status ≠ .breakpoint node) →
      s.pulse dt budget v = ({ s with scheduler := { s.scheduler.tick dt with
          ready := Pass.readyOf [({ t with context := c }, status)]
          asleep := Pass.sleepersOf [({ t with context := c }, status)] } }, u) := by
    intro status c u hrun hstatus
    have hslice : m.executor.slice t.id t.routine t.context budget (s.scheduler.tick dt).clock
        ⟨[], v⟩ = ⟨status, c, ⟨[], u⟩⟩ := by
      simp only [Interpreter.executor, Interpreter.slice, hroutine, hr, hregistry, hclock, hrun]
    simp only [Session.pulse, Session.update, h.interpreter, h.breakpoints,
      Scheduler.pulse_of_one_ready h.running hready hasleep hslice hstatus]
  by_cases hk : passCount k < l.bound
  · obtain ⟨c, hc, hrun⟩ := l.slice_plays hbudget hplace hk (pulseTime dt (i + 1)) v
    rw [hpulse _ _ _ hrun fun _ => Status.noConfusion]
    refine ⟨k + 1, onsets ++ [i + 1], h.interpreter, h.breakpoints, h.running, hclock, ?_, ?_, ?_,
      ?_⟩
    · refine .asleep hdue hk (Nat.le_refl _) ?_ hroutine hc
      intro i' hlt hle
      exact absurd hlt (Nat.not_lt.2 hle)
    · rw [List.length_append, h.length, List.length_singleton]
    · intro k' j hj
      rcases Nat.lt_or_ge k' onsets.length with hlt | hge
      · rw [List.getElem?_append_left hlt] at hj
        exact h.due_succ hj
      · rw [List.getElem?_append_right hge, List.getElem?_singleton] at hj
        split at hj
        · obtain rfl := Option.some.inj hj
          have hk' : k' = k := by
            have hlength := h.length
            omega
          subst hk'
          exact ⟨hdue, hk, Nat.le_refl _⟩
        · cases hj
    · rw [Sink.events_emit, h.events, List.mapIdx_concat, h.length]
  · obtain ⟨c, hrun⟩ := l.slice_halts hbudget hplace hk (pulseTime dt (i + 1)) v
    rw [hpulse _ _ _ hrun fun _ => Status.noConfusion]
    exact ⟨k, onsets, h.interpreter, h.breakpoints, h.running, hclock, .halted hdue hk, h.length,
      fun _ _ => h.due_succ, h.events⟩

/-- **A pulse keeps to the times.** -/
theorem pulse (hregistry : m.registry = .standard Sink)
    (hr : m.program.routine? routine = some r) (hbudget : 5 ≤ budget)
    (h : l.Plays m routine dt i s v k onsets) (hbusy : s.scheduler.isIdle = false) :
    ∃ k' onsets', l.Plays m routine dt (i + 1) (s.pulse dt budget v).1 (s.pulse dt budget v).2 k'
      onsets' := by
  have hclock : s.scheduler.clock + dt = pulseTime dt (i + 1) := congrArg (· + dt) h.clock
  have hphase := h.phase
  generalize hready : s.scheduler.ready = ready at hphase
  generalize hasleep : s.scheduler.asleep = asleep at hphase
  cases hphase with
  | first hroutine hplace =>
    refine h.pulse_awake hregistry hr hbudget ?_ ?_ hroutine hplace .first
    · simp only [Scheduler.tick, Scheduler.wake, hready, hasleep]
      rfl
    · simp only [Scheduler.tick, Scheduler.wake, hasleep]
      rfl
  | @asleep k j _ t hlast hcount hle hwaits hroutine hplace =>
    by_cases hend : pulseTime dt j + l.duration ≤ pulseTime dt (i + 1)
    · have hdue : Due dt l.duration l.bound (k + 1) (i + 1) :=
        .next hlast hcount (Nat.lt_succ_of_le hle) hend fun i' hlt hlt' =>
          hwaits i' hlt (Nat.le_of_lt_succ hlt')
      refine h.pulse_awake hregistry hr hbudget (t := t) ?_ ?_ hroutine hplace hdue
      · simp [Scheduler.tick, Scheduler.wake, hready, hasleep, hclock, hend]
      · simp [Scheduler.tick, Scheduler.wake, hasleep, hclock, hend]
    · have hasleep' : (s.scheduler.tick dt).asleep = [⟨t, pulseTime dt j + l.duration⟩] := by
        simp [Scheduler.tick, Scheduler.wake, hasleep, hclock, hend]
      refine ⟨k + 1, onsets, h.pulse_asleep ?_ ?_⟩
      · simp [Scheduler.tick, Scheduler.wake, hready, hasleep, hclock, hend]
      · rw [hasleep']
        refine .asleep hlast hcount (Nat.le_succ_of_le hle) (fun i' hlt hle' => ?_) hroutine hplace
        rcases Nat.lt_succ_iff_lt_or_eq.1 (Nat.lt_succ_of_le hle') with hlt' | rfl
        · exact hwaits i' hlt (Nat.le_of_lt_succ hlt')
        · exact hend
  | halted =>
    rw [Scheduler.isIdle, hready, hasleep] at hbusy
    cases hbusy

theorem runPulses (hregistry : m.registry = .standard Sink)
    (hr : m.program.routine? routine = some r) (hbudget : 5 ≤ budget) (limit : Nat)
    (h : l.Plays m routine dt i s v k onsets) :
    ∃ i' s' v' k' onsets', s.runPulses dt budget limit i v = (i', s', v') ∧
      l.Plays m routine dt i' s' v' k' onsets' ∧ i' ≤ i + limit ∧
      (s'.scheduler.isIdle = false → i' = i + limit) := by
  induction limit generalizing i s v k onsets with
  | zero => exact ⟨i, s, v, k, onsets, rfl, h, Nat.le_refl i, fun _ => rfl⟩
  | succ limit ih =>
    rw [Session.runPulses]
    split
    · rename_i hidle
      refine ⟨i, s, v, k, onsets, rfl, h, Nat.le_add_right .., fun hbusy => ?_⟩
      rw [hidle] at hbusy
      cases hbusy
    · rename_i hbusy
      obtain ⟨k', onsets', hnext⟩ := h.pulse hregistry hr hbudget (Bool.eq_false_iff.2 hbusy)
      rw [Nat.add_comm limit, ← Nat.add_assoc]
      exact ih hnext

/-! A session that is at its end, or at the end of its pulses. -/

section
variable {n k' j : Nat}

theorem exists_onset (h : l.Plays m routine dt i s v k onsets) (hk : k' < k) :
    ∃ j ≤ i, onsets[k']? = some j ∧ Due dt l.duration l.bound k' j ∧ passCount k' < l.bound := by
  rw [← h.length] at hk
  have hj := List.getElem?_eq_getElem hk
  obtain ⟨hdue, hcount, hle⟩ := h.due k' _ hj
  exact ⟨_, hle, hj, hdue, hcount⟩

/-- A pass that comes up in time is one whose note was played, or the one the thread halted in. -/
theorem due_cases (h : l.Plays m routine dt i s v k onsets)
    (hlive : s.scheduler.isIdle = false → i = n) (hj : j ≤ n)
    (hdue : Due dt l.duration l.bound k' j) :
    k' < k ∨ s.scheduler.isIdle = true ∧ j = i ∧ ¬ passCount k' < l.bound := by
  rcases Nat.lt_or_ge k' k with hlt | hge
  · exact .inl hlt
  cases hidle : s.scheduler.isIdle with
  | false =>
    obtain ⟨j', hj', hdue'⟩ := hdue.exists_le hge
    have hlt := h.phase.lt_of_due hidle hdue'
    have hi := hlive hidle
    omega
  | true =>
    obtain ⟨hdue', hlast⟩ := h.phase.of_halted hidle
    obtain rfl := Nat.le_antisymm (hdue.le_last hlast) hge
    exact .inr ⟨rfl, hdue.unique hdue', hlast⟩

theorem onsets_iff (h : l.Plays m routine dt i s v k onsets) (hle : i ≤ n)
    (hlive : s.scheduler.isIdle = false → i = n) : onsets[k']? = some j ↔
      j ≤ n ∧ Due dt l.duration l.bound k' j ∧ passCount k' < l.bound := by
  constructor
  · intro hj
    obtain ⟨hdue, hcount, hji⟩ := h.due k' j hj
    exact ⟨Nat.le_trans hji hle, hdue, hcount⟩
  · rintro ⟨hj, hdue, hcount⟩
    rcases h.due_cases hlive hj hdue with hlt | ⟨-, -, hlast⟩
    · obtain ⟨j', -, hj', hdue', -⟩ := h.exists_onset hlt
      rwa [hdue.unique hdue']
    · exact absurd hcount hlast

/-- A pass whose note is not to be played is the one the thread halted in. -/
theorem halted_of_due (h : l.Plays m routine dt i s v k onsets)
    (hlive : s.scheduler.isIdle = false → i = n) (hj : j ≤ n)
    (hdue : Due dt l.duration l.bound k' j) (hlast : ¬ passCount k' < l.bound) :
    s.scheduler.isIdle = true ∧ i = j := by
  rcases h.due_cases hlive hj hdue with hlt | ⟨hidle, hji, -⟩
  · obtain ⟨-, -, -, -, hcount⟩ := h.exists_onset hlt
    exact absurd hcount hlast
  · exact ⟨hidle, hji.symm⟩

theorem count (h : l.Plays m routine dt i s v k onsets) (hle : i ≤ n)
    (hlive : s.scheduler.isIdle = false → i = n) {passes : Nat}
    (hlast : ¬ passCount passes < l.bound) (hall : ∀ k' < passes, passCount k' < l.bound) :
    onsets.length ≤ passes ∧ (onsets.length = passes ↔
      ∀ k' < passes, ∃ j ≤ n, Due dt l.duration l.bound k' j) := by
  rw [h.length]
  have hmost : k ≤ passes := by
    refine Nat.not_lt.1 fun hlt => ?_
    obtain ⟨-, -, -, -, hcount⟩ := h.exists_onset hlt
    exact hlast hcount
  refine ⟨hmost, fun heq k' hk' => ?_, fun hdue => ?_⟩
  · obtain ⟨j, hj, -, hdue, -⟩ := h.exists_onset (heq ▸ hk')
    exact ⟨j, Nat.le_trans hj hle, hdue⟩
  · refine Nat.le_antisymm hmost (Nat.not_lt.1 fun hlt => ?_)
    -- otherwise the next pass is one of those that come up in time, but has no note
    obtain ⟨j, hj, hdue'⟩ := hdue k hlt
    rcases h.due_cases hlive hj hdue' with hself | ⟨-, -, hnot⟩
    · exact Nat.lt_irrefl k hself
    · exact hnot (hall k hlt)

theorem keepsTime (h : l.Plays m routine dt i s v k onsets) (hle : i ≤ n)
    (hlive : s.scheduler.isIdle = false → i = n) :
    KeepsTime dt l.duration l.bound l.pitchAt n ⟨i, s.scheduler.clock, s.scheduler.isIdle⟩ v.closed
      onsets where
  events := h.events
  onsets_iff _ _ := h.onsets_iff hle hlive
  count _ := h.count hle hlive
  finished_iff := by
    constructor
    · intro hidle
      obtain ⟨hdue, hlast⟩ := h.phase.of_halted hidle
      exact ⟨k, i, hle, hdue, hlast⟩
    · rintro ⟨_, _, hj, hdue, hlast⟩
      exact (h.halted_of_due hlive hj hdue hlast).1
  pulses_of_last _ _ hj hdue hlast := (h.halted_of_due hlive hj hdue hlast).2
  pulses_of_live := hlive
  time := h.clock

end

end Plays

end NoteLoop

/-! ## Runs -/

namespace Graph.RepeatsNote

variable {g : Graph} {s r p : Node} {x : Float} {beats : Value}

/-- **Notes are played on time.** With at least five instructions for a slice, a run of a graph that
repeats a note plays the note in the first pulse, and again in the first pulse that is not before
the end of the last, as often as the loop says; then the thread halts. -/
theorem plays_on_time (h : g.RepeatsNote s r p x beats) (dt : Float) (n : Nat) {budget : Nat}
    (hbudget : 5 ≤ budget) : ∃ report sink onsets,
      (Lowering.machineOf Sink g [s]).runProgram ⟨dt, n, budget⟩ .new = (.ok report, sink) ∧
        KeepsTime dt (beats.toNumber * 60000 / 120) x
          (fun k => Music.pitchName ((Memory.single (Lowering.counterName r.id)
            (.number (passCount k))).resolve (pitchOf p))) n report sink onsets := by
  obtain ⟨l, hcounter, hbound, hpitch, hbeats⟩ := h.exists_noteLoop
  have hr : (Lowering.machineOf Sink g [s]).program.routine? (Lowering.routineName s.id) =
      some (Lowering.compileThread (Registry.standard Sink).rules g s.id).1 :=
    (Lowering.routine?_compile_iff _ g [s]).2 ⟨s, List.mem_cons_self, rfl, rfl⟩
  have hfresh : l.Plays (Lowering.machineOf Sink g [s]) (Lowering.routineName s.id) dt 0 (.fresh _)
      { Sink.new with isOpen := true } 0 [] := .fresh rfl
  obtain ⟨i, q, v, k, onsets, hruns, hplays, hle, hlive⟩ := hfresh.runPulses rfl hr hbudget n
  have hrun := Registry.runProgram_standard (Lowering.machineOf Sink g [s]).program ⟨dt, n, budget⟩
  have hkeeps := hplays.keepsTime (n := n) (Nat.zero_add n ▸ hle) (Nat.zero_add n ▸ hlive)
  dsimp only [Lowering.machineOf] at hrun hruns
  rw [hruns] at hrun
  refine ⟨_, _, onsets, hrun, ?_⟩
  rw [← hcounter, ← hbound, ← hpitch, ← hbeats]
  exact hkeeps

/-- A start node, a loop and the note that it repeats. -/
def encore : Graph :=
  ⟨[⟨"s", "start", ∅, some "twice", none⟩,
      ⟨"twice", "repeat", .ofList [("iterations", .number 2)], none, some "play"⟩,
      ⟨"play", "play_note", .ofList [("pitch", .text "E4"), ("beats", .number 1)], none, none⟩],
    by decide⟩

/-- With pulses of 200 the first note ends at 700, between two pulses. -/
theorem plays_on_time_encore :
    let start : Node := ⟨"s", "start", ∅, some "twice", none⟩
    (∃ r p, encore.RepeatsNote start r p 2 (.number 1)) ∧
      Due 200 500 2 1 4 ∧ Due 200 500 2 2 7 ∧ ∃ report sink,
        (Lowering.machineOf Sink encore [start]).runProgram ⟨200, 20, 5⟩ .new = (.ok report, sink) ∧
          sink.events = [.note "E4" 500 200, .note "E4" 500 800] ∧ report = ⟨7, 1400, true⟩ := by
  intro start
  have hrepeats : encore.RepeatsNote start
      ⟨"twice", "repeat", .ofList [("iterations", .number 2)], none, some "play"⟩
      ⟨"play", "play_note", .ofList [("pitch", .text "E4"), ("beats", .number 1)], none, none⟩
      2 (.number 1) := by
    constructor <;> decide +kernel
  have hduration : (Value.number 1).toNumber * 60000 / 120 = 500 := by decide +kernel
  have hcount : ∀ k < 2, passCount k < 2 := by decide +kernel
  have hlast : ¬ passCount 2 < 2 := by decide +kernel
  have hwait : ∀ i < 4, 1 < i → ¬ pulseTime 200 1 + 500 ≤ pulseTime 200 i := by decide +kernel
  have hwait' : ∀ i < 7, 4 < i → ¬ pulseTime 200 4 + 500 ≤ pulseTime 200 i := by decide +kernel
  have hsecond : Due 200 500 2 1 4 :=
    .next .first (hcount 0 (by decide)) (by decide) (by decide +kernel) fun i hlt hlt' =>
      hwait i hlt' hlt
  have hthird : Due 200 500 2 2 7 :=
    .next hsecond (hcount 1 (by decide)) (by decide) (by decide +kernel) fun i hlt hlt' =>
      hwait' i hlt' hlt
  obtain ⟨report, sink, onsets, hrun, hkeeps⟩ := hrepeats.plays_on_time 200 20 (Nat.le_refl 5)
  rw [hduration] at hkeeps
  have honsets : onsets = [1, 4] := by
    have hfirst' := (hkeeps.onsets_iff 0 1).2 ⟨by decide, .first, hcount 0 (by decide)⟩
    have hsecond' := (hkeeps.onsets_iff 1 4).2 ⟨by decide, hsecond, hcount 1 (by decide)⟩
    have hlength : onsets.length = 2 := by
      refine (hkeeps.count 2 hlast hcount).2.2 fun k hk => ?_
      obtain ⟨j, hj, hdue⟩ := hthird.exists_le (Nat.le_of_lt hk)
      exact ⟨j, Nat.le_trans hj (by decide), hdue⟩
    obtain ⟨_, _, rfl⟩ := List.length_eq_two.1 hlength
    cases hfirst'
    cases hsecond'
    rfl
  have hreport : report = ⟨7, 1400, true⟩ := by
    have hpulses := hkeeps.pulses_of_last 2 7 (by decide) hthird hlast
    have hfinished := hkeeps.finished_iff.2 ⟨2, 7, by decide, hthird, hlast⟩
    have hseven : pulseTime 200 7 = 1400 := by decide +kernel
    have htime := hkeeps.time
    rw [hpulses, hseven] at htime
    cases report
    cases hpulses
    cases hfinished
    cases htime
    rfl
  refine ⟨⟨_, _, hrepeats⟩, hsecond, hthird, report, sink, hrun, ?_, hreport⟩
  rw [hkeeps.events, honsets]
  decide +kernel

end Graph.RepeatsNote

end TuneBlocks
