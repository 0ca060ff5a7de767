import Mathlib.Data.List.Induction
import TuneBlocks.Proofs.Lifecycle
import TuneBlocks.Proofs.Performance

/-!
# Sessions that share a sink

Sessions over one standard registry start, are driven and end in any order, and share its sink. The
sink is open only while one of them is under way, but not always then: a session cannot start while
the sink is open, and the attempt closes it. So the sink is open exactly while a session is under
way if and only if no session starts before the one before it has ended
(`Ensemble.open_while_live_iff`).
-/

namespace TuneBlocks

variable {σ : Type}

/-! ## What slices keep of the world -/

/-- The handlers keep a property of the world. -/
def Registry.Keeps (registry : Registry σ) (P : σ → Prop) : Prop :=
  ∀ name handler, registry.handler? name = some handler →
    ∀ args now c w, P w → P (handler args now c w).world

namespace Interpreter

variable {P : σ → Prop}

theorem turn_keeps {registry : Registry σ} (hregistry : registry.Keeps P) (r : Routine)
    (breakpoints : List NodeId) (now : Float) (c : Context) {w : σ} (hw : P w) :
    P (turn registry r breakpoints now c w).world := by
  unfold turn
  split
  · exact hw
  · split
    · exact hw
    · rename_i i _ _ _
      cases haction : i.action with
      | call name args =>
        simp only [execute]
        split
        · exact hw
        · rename_i handler hhandler
          have hreply := hregistry name handler hhandler (args.map (advance c i).resolve) now
            (advance c i) w hw
          split <;> exact hreply
      | _ => exact hw

theorem run_keeps {registry : Registry σ} (hregistry : registry.Keeps P) (r : Routine)
    (breakpoints : List NodeId) (now : Float) (budget : Nat) (c : Context) {w : σ} (hw : P w) :
    P (run registry r breakpoints now budget c w).world := by
  induction budget generalizing c w with
  | zero => exact hw
  | succ budget ih =>
    have hturn := turn_keeps hregistry r breakpoints now c hw
    unfold run
    cases hnext : turn registry r breakpoints now c w with
    | stop result =>
      rw [hnext] at hturn
      exact hturn
    | next c' w' =>
      rw [hnext] at hturn
      exact ih c' hturn

theorem slice_keeps {m : Interpreter σ} (hregistry : m.registry.Keeps P) (id routine : String)
    (c : Context) (budget : Nat) (now : Float) {v : Machine σ} (hv : P v.world) :
    P (m.executor.slice id routine c budget now v).world.world := by
  simp only [executor, slice]
  split
  · exact hv
  · exact run_keeps hregistry _ _ now budget c hv

end Interpreter

/-- A pass without anybody to tell of breakpoints keeps what the slices keep. -/
theorem Scheduler.runSlices_world {ex : Executor σ} {P : σ → Prop}
    (hex : ∀ id routine c budget now w, P w → P (ex.slice id routine c budget now w).world)
    (budget count : Nat) {s : Scheduler σ} (hs : s.onHit = none) {w : σ} (hw : P w) :
    P (s.runSlices ex budget count w).2 := by
  induction count generalizing s w with
  | zero => exact hw
  | succ count ih =>
    unfold runSlices
    split
    · exact hw
    · rename_i t queue _
      have hslice := hex t.id t.routine t.context budget s.clock w hw
      cases hstatus : (ex.slice t.id t.routine t.context budget s.clock w).status with
      | breakpoint node =>
        simp only [hstatus, hs]
        exact hslice
      | _ =>
        simp only [hstatus]
        apply ih _ hslice
        exact hs

namespace Session

/-- Driving a session keeps what its handlers keep, and nobody is told of breakpoints. -/
theorem control_keeps {P : σ → Prop} {s : Session σ} (hregistry : s.interpreter.registry.Keeps P)
    (hs : s.scheduler.onHit = none) {w : σ} (hw : P w) (c : Control) :
    P (s.control w c).2 ∧ (s.control w c).1.scheduler.onHit = none := by
  have hslices (budget count : Nat) {s' : Scheduler (Machine σ)} (hs' : s'.onHit = none) :
      P (s'.runSlices s.interpreter.executor budget count ⟨s.breakpoints, w⟩).2.world ∧
        (s'.runSlices s.interpreter.executor budget count ⟨s.breakpoints, w⟩).1.onHit = none := by
    refine ⟨?_, (Scheduler.runSlices_keeps ..).2.trans hs'⟩
    apply Scheduler.runSlices_world (P := fun v => P v.world) _ budget count hs' hw
    intro id routine c budget now v hv
    exact Interpreter.slice_keeps hregistry id routine c budget now hv
  cases c with
  | pulse delta budget =>
    simp only [control, pulse, update, Scheduler.pulse]
    split
    · exact ⟨hw, hs⟩
    · exact hslices budget _ hs
  | step => exact hslices 1 1 hs
  | pause => exact ⟨hw, hs⟩
  | resume => exact ⟨hw, hs⟩
  | setBreakpoints breakpoints => exact ⟨hw, hs⟩

end Session

/-! ## The standard hooks -/

namespace Registry

theorem setUpAll_standard_closed {w : Sink} (havailable : w.unavailable = none)
    (hclosed : w.isOpen = false) :
    (standard Sink).setUpAll w = (.ok (), { w with isOpen := true }) := by
  have hhooks : (standard Sink).setUpHooks = [("music", Music.openSink)] := rfl
  simp [setUpAll, hhooks, runUntilFailure, Music.openSink, HasSink.sink, HasSink.setSink,
    Sink.opened, havailable, hclosed]

theorem setUpAll_standard_open {w : Sink} (havailable : w.unavailable = none)
    (hopen : w.isOpen = true) : (standard Sink).setUpAll w =
      (.error (.setUp "music" SinkError.alreadyOpen.message), w) := by
  have hhooks : (standard Sink).setUpHooks = [("music", Music.openSink)] := rfl
  simp [setUpAll, hhooks, runUntilFailure, Music.openSink, HasSink.sink, Sink.opened, havailable,
    hopen]

theorem cleanUpAll_standard (w : Sink) :
    (standard Sink).cleanUpAll w = (.ok (), { w with isOpen := false }) := rfl

/-- With the standard blocks a run that starts with a new sink succeeds, and closes the sink. -/
theorem runProgram_standard (p : Program) (o : RunOptions) :
    let (pulses, s, v) := Session.runPulses o.pulse o.budget o.maxPulses 0
      (.fresh ⟨p, standard Sink⟩) { Sink.new with isOpen := true }
    (Interpreter.mk p (standard Sink)).runProgram o .new =
      (.ok ⟨pulses, s.scheduler.clock, s.scheduler.isIdle⟩, v.closed) := by
  have hrun := Interpreter.runProgram_of_ok (m := ⟨p, standard Sink⟩) (w := .new) rfl o
  have hkeeps := (Session.runPulses_keeps o.pulse o.budget o.maxPulses 0
    (.fresh ⟨p, standard Sink⟩) { Sink.new with isOpen := true }).1
  have hopened : ((standard Sink).setUpAll .new).2 = { Sink.new with isOpen := true } := rfl
  simp only [hopened, Session.conclude, Session.finish, hkeeps, Session.release] at hrun
  exact hrun

/-- Handlers add events to a sink, and leave it open or closed as it is. -/
theorem keeps_standard (isOpen : Bool) : (standard Sink).Keeps fun w =>
    w.isOpen = isOpen ∧ w.unavailable = none := by
  intro name handler h args now c w hw
  cases answers_of_handler? Sink h <;> exact hw

end Registry

/-! ## Ensembles -/

/-- What can be done with sessions. A session is called by the number of those that started before
it. -/
inductive Move where
  | start (program : Program)
  | control (session : Nat) (c : Control)
  | conclude (session : Nat) (ending : Ending)

/-- The sessions that have started and not yet ended, each with its number, and their sink. -/
structure Ensemble where
  started : Nat
  live : List (Nat × Session Sink)
  sink : Sink

namespace Ensemble

def perform (e : Ensemble) : Move → Ensemble
  | .start program =>
    match Session.start ⟨program, .standard Sink⟩ e.sink with
    | (.ok s, w) => ⟨e.started + 1, e.live ++ [(e.started, s)], w⟩
    | (.error _, w) => { e with sink := w }
  | .control i c =>
    match e.live.find? (·.1 == i) with
    | none => e
    | some (_, s) =>
      { e with
        live := e.live.map fun x => if x.1 = i then (i, (s.control e.sink c).1) else x
        sink := (s.control e.sink c).2 }
  | .conclude i ending =>
    match e.live.find? (·.1 == i) with
    | none => e
    | some (_, s) =>
      { e with live := e.live.filter (·.1 != i), sink := (s.conclude e.sink ending).2 }

/-- The sessions over a sink after some moves. -/
def after (w : Sink) (moves : List Move) : Ensemble := moves.foldl perform ⟨0, [], w⟩

theorem after_concat (w : Sink) (moves : List Move) (m : Move) :
    after w (moves ++ [m]) = (after w moves).perform m :=
  List.foldl_append

/-- A session over the standard registry that has not ended and tells nobody of breakpoints. -/
structure UnderWay (s : Session Sink) : Prop where
  unfinished : s.finished = false
  registry_eq : s.interpreter.registry = .standard Sink
  onHit_eq : s.scheduler.onHit = none

/-- What holds of sessions and their sink at all times. -/
structure Sound (e : Ensemble) : Prop where
  available : e.sink.unavailable = none
  underWay : ∀ x ∈ e.live, UnderWay x.2
  live_of_open : e.sink.isOpen = true → e.live ≠ []

/-- What a move does: a start opens the sink or closes it, an end closes it. -/
inductive Outcome (e : Ensemble) : Move → Ensemble → Prop where
  | started : e.sink.isOpen = false → UnderWay s → w.isOpen = true → w.unavailable = none →
    Outcome e (.start p) ⟨e.started + 1, e.live ++ [(e.started, s)], w⟩
  | refused : e.sink.isOpen = true → w.isOpen = false → w.unavailable = none →
    Outcome e (.start p) { e with sink := w }
  | controlled : UnderWay s → w.isOpen = e.sink.isOpen → w.unavailable = none →
    Outcome e (.control i c)
      { e with live := e.live.map fun x => if x.1 = i then (i, s) else x, sink := w }
  | concluded : x ∈ e.live → x.1 = i → w.isOpen = false → w.unavailable = none →
    Outcome e (.conclude i ending) { e with live := e.live.filter (·.1 != i), sink := w }
  | ignored : (∀ p, m ≠ .start p) → Outcome e m e

theorem Sound.outcome {e : Ensemble} (h : e.Sound) (m : Move) : e.Outcome m (e.perform m) := by
  cases m with
  | start p =>
    cases hopen : e.sink.isOpen with
    | false =>
      have hsetUp := Registry.setUpAll_standard_closed h.available hopen
      have hstart := Session.start_of_ok (m := ⟨p, .standard Sink⟩) (congrArg Prod.fst hsetUp)
      simp only [perform, hstart, hsetUp]
      refine .started hopen ⟨rfl, rfl, ?_⟩ rfl h.available
      rw [Session.fresh, Session.threadsOf_eq]
      rfl
    | true =>
      have hsetUp := Registry.setUpAll_standard_open h.available hopen
      have hstart := Session.start_of_error (m := ⟨p, .standard Sink⟩) (congrArg Prod.fst hsetUp)
      simp only [perform, hstart, hsetUp, Registry.cleanUpAll_standard]
      exact .refused hopen rfl h.available
  | control i c =>
    simp only [perform]
    split
    · exact .ignored (by intro p hp; cases hp)
    · rename_i j s hfound
      obtain ⟨hunfinished, hregistry, honHit⟩ := h.underWay _ (List.mem_of_find?_eq_some hfound)
      have hkeeps := Registry.keeps_standard e.sink.isOpen
      rw [← hregistry] at hkeeps
      obtain ⟨hsink, honHit'⟩ := Session.control_keeps hkeeps honHit ⟨rfl, h.available⟩ c
      refine .controlled ⟨?_, ?_, honHit'⟩ hsink.1 hsink.2
      · rw [Session.control_eq]
        exact hunfinished
      · rw [Session.control_eq]
        exact hregistry
  | conclude i ending =>
    simp only [perform]
    split
    · exact .ignored (by intro p hp; cases hp)
    · rename_i j s hfound
      have hmem := List.mem_of_find?_eq_some hfound
      obtain ⟨hunfinished, hregistry, -⟩ : UnderWay s := h.underWay _ hmem
      have hsink : (s.conclude e.sink ending).2 = { e.sink with isOpen := false } := by
        cases ending with
        | finish =>
          simp only [Session.conclude, Session.finish, Session.release, ↓reduceIte, hregistry,
            Registry.cleanUpAll_standard]
        | release =>
          simp only [Session.conclude, Session.release, hunfinished, Bool.false_eq_true,
            ↓reduceIte, hregistry, Registry.cleanUpAll_standard]
      rw [hsink]
      exact .concluded hmem (by simpa using List.find?_some hfound) rfl h.available

theorem Sound.perform {e : Ensemble} (h : e.Sound) (m : Move) : (e.perform m).Sound := by
  have houtcome := h.outcome m
  generalize e.perform m = e' at houtcome
  cases houtcome with
  | started _ hs _ havailable =>
    refine ⟨havailable, fun x hx => ?_, fun _ => by simp⟩
    rcases List.mem_append.1 hx with hx | hx
    · exact h.underWay x hx
    · rw [List.mem_singleton.1 hx]
      exact hs
  | refused _ hclosed havailable =>
    refine ⟨havailable, h.underWay, fun hopen => ?_⟩
    rw [hclosed] at hopen
    cases hopen
  | controlled hs hopen havailable =>
    refine ⟨havailable, fun x hx => ?_, fun hopen' hlive => ?_⟩
    · obtain ⟨y, hy, rfl⟩ := List.mem_map.1 hx
      split
      · exact hs
      · exact h.underWay y hy
    · exact h.live_of_open (hopen.symm.trans hopen') (List.map_eq_nil_iff.1 hlive)
  | concluded _ _ hclosed havailable =>
    refine ⟨havailable, fun x hx => h.underWay x (List.mem_filter.1 hx).1, fun hopen => ?_⟩
    rw [hclosed] at hopen
    cases hopen
  | ignored => exact h

/-- A sink that is available and closed, whatever it has recorded. -/
def closedSink (recorded : List Event) : Sink := ⟨recorded, false, none⟩

theorem sound_after (recorded : List Event) (moves : List Move) :
    (after (closedSink recorded) moves).Sound := by
  induction moves using List.reverseRec with
  | nil => exact ⟨rfl, fun x hx => absurd hx List.not_mem_nil, fun hopen => by cases hopen⟩
  | append_singleton moves m ih =>
    rw [after_concat]
    exact ih.perform m

/-- At most one session is under way, and the sink is open just then. -/
structure Solo (e : Ensemble) : Prop where
  open_iff : e.sink.isOpen = true ↔ e.live ≠ []
  length_le : e.live.length ≤ 1

theorem Solo.perform {e : Ensemble} (hsound : e.Sound) (h : e.Solo) {m : Move}
    (hstart : ∀ p, m = .start p → e.live = []) : (e.perform m).Solo := by
  have houtcome := hsound.outcome m
  generalize e.perform m = e' at houtcome
  cases houtcome with
  | started _ _ hopen =>
    rw [hstart _ rfl]
    exact ⟨by simp [hopen], Nat.le_refl 1⟩
  | refused hopen => exact absurd (hstart _ rfl) (h.open_iff.1 hopen)
  | controlled _ hopen =>
    refine ⟨?_, ?_⟩
    · rw [hopen, h.open_iff]
      simp
    · rw [List.length_map]
      exact h.length_le
  | @concluded x i w ending hx hi hclosed =>
    -- the session that ends was the only one
    have hlive : e.live = [x] := by
      have hle := h.length_le
      match hl : e.live with
      | [] => rw [hl] at hx; cases hx
      | [y] => rw [hl] at hx; rw [List.mem_singleton.1 hx]
      | _ :: _ :: _ => rw [hl] at hle; simp at hle
    have hnone : e.live.filter (·.1 != i) = [] := by simp [hlive, hi]
    rw [hnone]
    exact ⟨by simp [hclosed], Nat.zero_le 1⟩
  | ignored => exact h

theorem solo_after {recorded : List Event} {moves : List Move}
    (h : ∀ ms p, ms ++ [.start p] <+: moves → (after (closedSink recorded) ms).live = [])
    {ms : List Move} (hms : ms <+: moves) : (after (closedSink recorded) ms).Solo := by
  induction ms using List.reverseRec with
  | nil => exact ⟨⟨fun hopen => (by cases hopen), fun hlive => absurd rfl hlive⟩, Nat.zero_le 1⟩
  | append_singleton ms m ih =>
    rw [after_concat]
    refine (ih ((List.prefix_append ms [m]).trans hms)).perform (sound_after recorded ms) ?_
    rintro p rfl
    exact h ms p hms

theorem refused_start {e : Ensemble} (h : e.Sound) (hopen : e.sink.isOpen = true) (p : Program) :
    (e.perform (.start p)).live = e.live ∧ (e.perform (.start p)).sink.isOpen = false := by
  have houtcome := h.outcome (.start p)
  generalize e.perform (.start p) = e' at houtcome
  cases houtcome with
  | started hclosed =>
    rw [hopen] at hclosed
    cases hclosed
  | refused _ hclosed => exact ⟨rfl, hclosed⟩
  | ignored hne => exact absurd rfl (hne p)

/-- **When the sink is open.** It is open only while a session is under way. It is open all that
time if and only if no session is started while another is under way: such a start fails and closes
the sink that the other still uses. -/
theorem open_while_live_iff (recorded : List Event) (moves : List Move) :
    let e := after (closedSink recorded)
    (∀ ms, (e ms).sink.isOpen = true → (e ms).live ≠ []) ∧
    (∀ ms p, (e ms).sink.isOpen = true →
      (e (ms ++ [.start p])).live = (e ms).live ∧
        (e (ms ++ [.start p])).sink.isOpen = false) ∧
    ((∀ ms, ms <+: moves → ((e ms).sink.isOpen = true ↔ (e ms).live ≠ [])) ↔
      ∀ ms p, ms ++ [.start p] <+: moves → (e ms).live = []) := by
  intro e
  have hrefused : ∀ ms p, (e ms).sink.isOpen = true →
      (e (ms ++ [.start p])).live = (e ms).live ∧
        (e (ms ++ [.start p])).sink.isOpen = false := by
    intro ms p hopen
    simp only [e, after_concat]
    exact refused_start (sound_after recorded ms) hopen p
  refine ⟨fun ms => (sound_after recorded ms).live_of_open, hrefused, ?_, ?_⟩
  · intro hopen ms p hms
    by_contra hlive
    obtain ⟨hlive', hclosed⟩ :=
      hrefused ms p ((hopen ms ((List.prefix_append ms _).trans hms)).2 hlive)
    rw [(hopen _ hms).2 (hlive' ▸ hlive)] at hclosed
    cases hclosed
  · intro hapart ms hms
    exact (solo_after hapart hms).open_iff

/-- A second session that starts while the first is under way closes the sink, although it fails. -/
theorem closed_while_live :
    let e := after .new [.start .empty, .start .empty]
    let opened : Sink := { Sink.new with isOpen := true }
    ¬(e.sink.isOpen = true ↔ e.live ≠ []) ∧
      (∃ error, (Session.start ⟨.empty, .standard Sink⟩ opened).1 = .error error) ∧
      (Session.start ⟨.empty, .standard Sink⟩ opened).2.isOpen = false := by
  refine ⟨fun h => ?_, ⟨_, rfl⟩, rfl⟩
  have hopen := h.2 (List.cons_ne_nil _ _)
  cases hopen

end Ensemble

end TuneBlocks
