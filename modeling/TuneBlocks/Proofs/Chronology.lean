import TuneBlocks.Proofs.Debugging

/-!
# Events in the order of their times

As long as the clock does not go back, events are recorded in the order of their times, and the
events of one thread do not overlap: each is over when the next one happens
(`Scheduler.events_chronological`). A slice emits all its events at its own time, and a note last of
all, because the thread then sleeps until the note is over (`Interpreter.slice_emission`). When the
next slice of a thread comes, its sleep is over: `Roster.Timely` is what holds of the log of slices
and of the sleepers at all times.
-/

namespace TuneBlocks

/-- When an event is over: a note lasts, anything else is over at once. -/
def Event.ends : Event → Float
  | note _ duration t => t + duration
  | volume _ _ t | print _ t => t

/-- Worlds in which the sink that was put in is found again. -/
class LawfulSink (σ : Type) [HasSink σ] : Prop where
  sink_setSink : ∀ (w : σ) (s : Sink), HasSink.sink (HasSink.setSink w s) = s

instance : LawfulSink Sink := ⟨fun _ _ => rfl⟩

instance : LawfulSink Command.Stage := ⟨fun _ _ => rfl⟩

namespace HasSink

variable {σ : Type} [HasSink σ]

theorem events_emit [LawfulSink σ] (w : σ) (e : Event) :
    events (emit w e) = events w ++ [e] := by
  rw [events, emit, LawfulSink.sink_setSink, Sink.events_emit]
  rfl

end HasSink

/-! ## Slices -/

/-- The events of a slice at a time: they happen then and are over at once, but for the last, which
may last if the thread sleeps until it is over. -/
inductive Emission (now : Float) (status : Status) : List Event → Prop where
  | none : Emission now status []
  | last : e.time = now → status = .sleeping e.ends → Emission now status [e]
  | brief : e.time = now → e.ends = now → Emission now status es → Emission now status (e :: es)

namespace Emission

variable {now : Float} {status : Status} {es : List Event}

theorem time (h : Emission now status es) : ∀ e ∈ es, e.time = now := by
  induction h with
  | none => exact fun e he => absurd he List.not_mem_nil
  | last htime => exact List.forall_mem_singleton.2 htime
  | brief htime _ _ ih => exact List.forall_mem_cons.2 ⟨htime, ih⟩

theorem ends (h : Emission now status es) :
    ∀ e ∈ es, e.ends = now ∨ status = .sleeping e.ends := by
  induction h with
  | none => exact fun e he => absurd he List.not_mem_nil
  | last _ hstatus => exact List.forall_mem_singleton.2 (.inr hstatus)
  | brief _ hends _ ih => exact List.forall_mem_cons.2 ⟨.inl hends, ih⟩

theorem append (h : Emission now status es) {front : List Event}
    (hfront : ∀ e ∈ front, e.time = now ∧ e.ends = now) : Emission now status (front ++ es) := by
  induction front with
  | nil => exact h
  | cons e front ih =>
    obtain ⟨⟨htime, hends⟩, hfront⟩ := List.forall_mem_cons.1 hfront
    exact .brief htime hends (ih hfront)

theorem pairwise (h : Emission now status es) (hnow : now ≤ now) :
    es.Pairwise fun e e' => e.ends ≤ e'.time := by
  induction h with
  | none => exact .nil
  | last => exact List.pairwise_singleton _ _
  | brief _ hends hrest ih =>
    refine .cons (fun e' he' => ?_) ih
    rw [hends, hrest.time e' he']
    exact hnow

end Emission

namespace Interpreter

variable {σ : Type} [HasSink σ]

/-- What a turn at a time adds to the events of a world. -/
def TurnEmits (now : Float) (w : σ) : Turn σ → Prop
  | .stop result => ∃ es, HasSink.events result.world = HasSink.events w ++ es ∧
      Emission now result.status es
  | .next _ w' => ∃ es, HasSink.events w' = HasSink.events w ++ es ∧
      ∀ e ∈ es, e.time = now ∧ e.ends = now

theorem turnEmits_stop (now : Float) (status : Status) (c : Context) (w : σ) :
    TurnEmits now w (.stop ⟨status, c, w⟩) :=
  ⟨[], (List.append_nil _).symm, .none⟩

theorem turnEmits_next (now : Float) (c : Context) (w : σ) : TurnEmits now w (.next c w) :=
  ⟨[], (List.append_nil _).symm, fun _ he => absurd he List.not_mem_nil⟩

variable [LawfulSink σ]

theorem turnEmits_brief {now : Float} (c : Context) (w : σ) {e : Event} (htime : e.time = now)
    (hends : e.ends = now) : TurnEmits now w (.next c (HasSink.emit w e)) :=
  ⟨[e], HasSink.events_emit w e, List.forall_mem_singleton.2 ⟨htime, hends⟩⟩

theorem execute_emits (a : Action) (now : Float) (c : Context) (w : σ) :
    TurnEmits now w (execute (Registry.standard σ) a now c w) := by
  cases a with
  | call name args =>
    cases hhandler : (Registry.standard σ).handler? name with
    | none =>
      simp only [execute, hhandler]
      exact turnEmits_next now c w
    | some handler =>
      simp only [execute, hhandler]
      cases Registry.answers_of_handler? σ hhandler with
      | playNote => exact ⟨[_], HasSink.events_emit w _, .last rfl rfl⟩
      | rest => exact turnEmits_stop now _ c w
      | wait => exact turnEmits_stop now _ c w
      | setTempo => exact turnEmits_next now _ w
      | setVolume => exact turnEmits_brief c w rfl rfl
      | print => exact turnEmits_brief c w rfl rfl
  | yield => exact turnEmits_stop now _ c w
  | _ => exact turnEmits_next now _ w

theorem turn_emits (r : Routine) (breakpoints : List NodeId) (now : Float) (c : Context) (w : σ) :
    TurnEmits now w (turn (Registry.standard σ) r breakpoints now c w) := by
  unfold turn
  split
  · exact turnEmits_stop now _ c w
  · split
    · exact turnEmits_stop now _ _ w
    · exact execute_emits _ now _ w

theorem run_emission (r : Routine) (breakpoints : List NodeId) (now : Float) (budget : Nat)
    (c : Context) (w : σ) :
    let result := run (Registry.standard σ) r breakpoints now budget c w
    ∃ es, HasSink.events result.world = HasSink.events w ++ es ∧
      Emission now result.status es := by
  induction budget generalizing c w with
  | zero => exact ⟨[], (List.append_nil _).symm, .none⟩
  | succ budget ih =>
    have hturn := turn_emits r breakpoints now c w
    simp only [run]
    cases hnext : turn (Registry.standard σ) r breakpoints now c w with
    | stop result =>
      rw [hnext] at hturn
      exact hturn
    | next c' w' =>
      rw [hnext] at hturn
      obtain ⟨es, hevents, hbrief⟩ := hturn
      obtain ⟨es', hevents', hrest⟩ := ih c' w'
      refine ⟨es ++ es', ?_, hrest.append hbrief⟩
      rw [hevents', hevents, List.append_assoc]

theorem slice_emits (p : Program) (breakpoints : List NodeId) (routine : String) (c : Context)
    (budget : Nat) (now : Float) (w : σ) :
    let result := (Interpreter.mk p (.standard σ)).slice breakpoints routine c budget now w
    ∃ es, HasSink.events result.world = HasSink.events w ++ es ∧
      Emission now result.status es := by
  simp only [slice]
  split
  · exact ⟨[], (List.append_nil _).symm, .none⟩
  · exact run_emission _ _ now budget c w

/-- The events of a slice happen at its time. -/
theorem slice_emission (p : Program) {g : Grant (Machine σ)}
    (hg : g.IsOf (Interpreter.mk p (.standard σ)).executor) :
    Emission g.now g.status g.emitted := by
  obtain ⟨es, hevents, hemission⟩ := slice_emits p g.world.breakpoints g.thread.routine
    g.thread.context g.budget g.now g.world.world
  have hresult : g.result = _ := hg
  have hemitted : g.emitted = es := by
    rw [Grant.emitted, hresult]
    exact (congrArg (List.drop _) hevents).trans List.drop_left
  rw [hemitted, Grant.status, hresult]
  exact hemission

theorem addsEvents_standard (p : Program) : (Interpreter.mk p (.standard σ)).AddsEvents := by
  intro breakpoints routine c budget now w
  obtain ⟨es, hevents, -⟩ := slice_emits p breakpoints routine c budget now w
  exact ⟨es, hevents.symm⟩

end Interpreter

/-! ## Times -/

instance Operation.decidableForward {σ : Type} :
    (clock : Float) → (ops : List (Operation σ)) → Decidable (Forward clock ops)
  | _, [] => .isTrue trivial
  | clock, op :: ops =>
    have := decidableForward (op.clockAfter clock) ops
    inferInstanceAs (Decidable (clock ≤ op.clockAfter clock ∧ Forward (op.clockAfter clock) ops))

namespace Roster

variable {σ : Type} {ex : Executor σ} {x : Roster σ}

/-- The times of slices and sleepers agree with the clock. -/
structure Timely (x : Roster σ) : Prop where
  /-- The clock is a number. -/
  clock : x.scheduler.clock ≤ x.scheduler.clock
  past : ∀ g ∈ x.log, g.now ≤ x.scheduler.clock
  ordered : x.log.Pairwise fun g g' => g.now ≤ g'.now
  /-- A thread that fell asleep is still asleep, or the time of its waking has come. -/
  resting : ∀ g ∈ x.log, ∀ wake, g.status = .sleeping wake →
    (g.number, ⟨g.after, wake⟩) ∈ x.asleep ∨ wake ≤ x.scheduler.clock
  /-- No slice of a thread comes before it wakes. -/
  rested : x.log.Pairwise fun g g' =>
    g'.number = g.number → ∀ wake, g.status = .sleeping wake → wake ≤ g'.now

theorem timely_new (w : σ) : (new w).Timely where
  clock := show (0 : Float) ≤ 0 by decide
  past _ hg := absurd hg List.not_mem_nil
  ordered := .nil
  resting _ hg := absurd hg List.not_mem_nil
  rested := .nil

theorem Timely.awake (h : x.Timely) {op : Operation σ}
    (hforward : x.scheduler.clock ≤ op.clockAfter x.scheduler.clock) : (x.awake op).Timely := by
  rw [← clock_awake] at hforward
  refine ⟨(float_le_self hforward).2, ?_, ?_, ?_, ?_⟩ <;> rw [log_awake]
  · exact fun g hg => float_le_trans (h.past g hg) hforward
  · exact h.ordered
  · intro g hg wake hstatus
    rcases h.resting g hg wake hstatus with hasleep | hdue
    · by_cases hnow : ∀ now ∈ (op.moment? x.scheduler.clock).toList, ¬ wake ≤ now
      · exact .inl (mem_asleep_awake hasleep hnow)
      · simp only [Option.mem_toList, Classical.not_forall, Classical.not_not] at hnow
        obtain ⟨now, hmoment, hdue⟩ := hnow
        rw [clock_awake, Operation.clockAfter, hmoment]
        exact .inr hdue
    · exact .inr (float_le_trans hdue hforward)
  · exact h.rested

theorem now_of_mem_granted {budget count : Nat} {g : Grant σ}
    (hg : g ∈ x.granted ex budget count) : g.now = x.scheduler.clock :=
  Executor.now_of_mem_grants _ _ _ hg

theorem Timely.serve (h : x.Timely) (hvalid : x.Valid) (budget count : Nat) :
    (x.serve ex budget count).Timely := by
  have hclock : (x.serve ex budget count).scheduler.clock = x.scheduler.clock :=
    (Scheduler.runSlices_keeps ..).1
  have hnow : ∀ g ∈ x.granted ex budget count, g.now = x.scheduler.clock :=
    fun g => now_of_mem_granted
  refine ⟨?_, ?_, ?_, ?_, ?_⟩
  · rw [hclock]
    exact h.clock
  · rw [hclock]
    refine List.forall_mem_append.2 ⟨h.past, fun g hg => ?_⟩
    rw [hnow g hg]
    exact h.clock
  · refine List.pairwise_append.2 ⟨h.ordered, ?_, ?_⟩
    · refine List.pairwise_of_forall_mem_list fun g hg g' hg' => ?_
      rw [hnow g hg, hnow g' hg']
      exact h.clock
    · intro g hg g' hg'
      rw [hnow g' hg']
      exact h.past g hg
  · rw [hclock]
    refine List.forall_mem_append.2 ⟨fun g hg wake hstatus => ?_, fun g hg wake hstatus => ?_⟩
    · exact (h.resting g hg wake hstatus).imp_left (List.mem_append_left _)
    · exact .inl (List.mem_append_right _ (Grant.mem_sleepers hg hstatus))
  · obtain ⟨hgranted, -, -⟩ := List.nodup_append.1 (hvalid.nodup_granted ex budget count)
    refine List.pairwise_append.2 ⟨h.rested, ?_, ?_⟩
    · exact (List.pairwise_map.1 hgranted).imp fun hne hnumber => absurd hnumber.symm hne
    · -- a thread that is still asleep is not in the queue
      intro g hg g' hg' hnumber wake hstatus
      rw [hnow g' hg']
      refine (h.resting g hg wake hstatus).resolve_left fun hasleep => ?_
      have hready : (g'.number, g'.thread) ∈ x.ready :=
        (x.granted_before ex budget count).subset (List.mem_map_of_mem hg')
      rw [hnumber] at hready
      exact hvalid.not_asleep hready hasleep

theorem Timely.perform (h : x.Timely) (hvalid : x.Valid) {op : Operation σ}
    (hforward : x.scheduler.clock ≤ op.clockAfter x.scheduler.clock) :
    (x.perform ex op).Timely := by
  have hserved :
      ((x.awake op).serve ex ((x.awake op).share op).1 ((x.awake op).share op).2).Timely :=
    (h.awake hforward).serve (hvalid.awake op) _ _
  cases op with
  | pulse delta budget => exact hserved
  | step => exact ⟨hserved.clock, hserved.past, hserved.ordered, hserved.resting, hserved.rested⟩
  | _ => exact ⟨h.clock, h.past, h.ordered, h.resting, h.rested⟩

theorem Timely.performAll (h : x.Timely) (hvalid : x.Valid) {ops : List (Operation σ)}
    (hforward : Operation.Forward x.scheduler.clock ops) : (x.performAll ex ops).Timely := by
  induction ops generalizing x with
  | nil => exact h
  | cons op ops ih =>
    obtain ⟨hop, hops⟩ := hforward
    rw [← clock_perform ex] at hops
    exact ih (h.perform hvalid hop) (hvalid.perform ex op) hops

end Roster

theorem Follows.isOf {σ : Type} {ex : Executor σ} {t t' : Thread} {gs : List (Grant σ)}
    (h : Follows ex t gs t') : ∀ g ∈ gs, g.IsOf ex := by
  induction h with
  | nil => exact fun g hg => absurd hg List.not_mem_nil
  | concat _ hof ih => exact List.forall_mem_append.2 ⟨ih, List.forall_mem_singleton.2 hof⟩

theorem Roster.Tracks.isOf {σ : Type} {ex : Executor σ} {x : Roster σ} (h : x.Tracks ex)
    (hvalid : x.Valid) {g : Grant σ} (hg : g ∈ x.log) : g.IsOf ex := by
  obtain ⟨t, t', -, hfollows⟩ := h.of_number hvalid (h.known g hg)
  exact hfollows.isOf g (List.mem_filter.2 ⟨hg, beq_self_eq_true g.number⟩)

section
variable {σ : Type} [HasSink σ] [LawfulSink σ]

/-- **Events are recorded in the order of their times, and those of a thread do not overlap.** As
long as the clock does not go back, whatever is asked of the scheduler: the slices emit their events
in the order of the times of these, of which none is later than the clock, and each event of a
thread is over when the next one of the thread happens. If nothing that is told of breakpoints
touches them, these are the events that are recorded. -/
theorem Scheduler.events_chronological (p : Program) (v : Machine σ)
    (ops : List (Operation (Machine σ))) (hforward : Operation.Forward 0 ops) :
    let ex := (Interpreter.mk p (.standard σ)).executor
    let x := (Roster.new v).performAll ex ops
    let es := x.log.flatMap Grant.emitted
    (x.scheduler, x.world) = Scheduler.new.performAll ex v ops ∧
      ((∀ tell, .onHit tell ∈ ops → Quiet tell) →
        HasSink.events x.world.world = HasSink.events v.world ++ es) ∧
      es.Pairwise (fun e e' => e.time ≤ e'.time) ∧ (∀ e ∈ es, e.time ≤ x.scheduler.clock) ∧
      ∀ n, ((x.slicesOf n).flatMap Grant.emitted).Pairwise fun e e' => e.ends ≤ e'.time := by
  intro ex x es
  have hvalid : x.Valid := (Roster.valid_new v).performAll ex ops
  have htimely : x.Timely := (Roster.timely_new v).performAll (Roster.valid_new v) hforward
  have hemission : ∀ g ∈ x.log, Emission g.now g.status g.emitted := fun g hg =>
    Interpreter.slice_emission p ((Roster.tracks_performAll ex v ops).isOf hvalid hg)
  refine ⟨(Roster.new v).performAll_eq ex ops, fun hquiet => ?_, ?_, ?_, fun n => ?_⟩
  · exact ((Roster.Sounds.new v).performAll (Interpreter.addsEvents_standard p) hquiet).events
  · refine List.pairwise_flatMap.2 ⟨fun g hg => ?_, ?_⟩
    · refine List.pairwise_of_forall_mem_list fun e he e' he' => ?_
      rw [(hemission g hg).time e he, (hemission g hg).time e' he']
      exact (float_le_self (htimely.past g hg)).1
    · refine htimely.ordered.imp_of_mem fun {g g'} hg hg' hle e he e' he' => ?_
      rw [(hemission g hg).time e he, (hemission g' hg').time e' he']
      exact hle
  · intro e he
    obtain ⟨g, hg, he⟩ := List.mem_flatMap.1 he
    rw [(hemission g hg).time e he]
    exact htimely.past g hg
  · have hslices : ∀ g ∈ x.slicesOf n, g ∈ x.log ∧ g.number = n := fun g hg =>
      ⟨(List.mem_filter.1 hg).1, beq_iff_eq.1 (List.mem_filter.1 hg).2⟩
    refine List.pairwise_flatMap.2 ⟨fun g hg => ?_, ?_⟩
    · have hlog := (hslices g hg).1
      exact (hemission g hlog).pairwise (float_le_self (htimely.past g hlog)).1
    · have hpairs := (htimely.ordered.and htimely.rested).filter (·.number == n)
      refine hpairs.imp_of_mem fun {g g'} hg hg' hle e he e' he' => ?_
      obtain ⟨hlog, hnumber⟩ := hslices g hg
      obtain ⟨hlog', hnumber'⟩ := hslices g' hg'
      rw [(hemission g' hlog').time e' he']
      rcases (hemission g hlog).ends e he with hbrief | hsleeping
      · rw [hbrief]
        exact hle.1
      · exact hle.2 (hnumber'.trans hnumber.symm) e.ends hsleeping

end

/-- Two threads with one id; the first is stopped before its note, and once it is, the breakpoints
are lifted. -/
def Scheduler.duet : List (Operation (Machine Sink)) :=
  [.schedule "voice" "thread_s" "block_start_s_7",
    .schedule "voice" "thread_play" "block_play_note_play_2",
    .onHit fun _ v => { v with breakpoints := [] }, .setBreakpoints ["play"], .pulse 16 10, .step,
    .resume, .pulse 4 10, .pulse 500 10]

-- The notes of the two threads overlap, those of the first do not.
theorem Scheduler.events_chronological_duet :
    let p := (Lowering.machineOf Sink Lowering.playTwice Lowering.playTwice.nodes).program
    let x := (Roster.new ⟨[], .new⟩).performAll (Interpreter.mk p (.standard Sink)).executor duet
    Operation.Forward 0 duet ∧
      HasSink.events x.world.world =
        [.note "C4" 500 16, .note "C4" 500 20, .note "C4" 500 520] ∧
      (HasSink.events x.world.world).Pairwise (fun e e' => e.time ≤ e'.time) ∧
      (x.slicesOf 0).flatMap Grant.emitted = [.note "C4" 500 16, .note "C4" 500 520] ∧
      ((x.slicesOf 0).flatMap Grant.emitted).Pairwise fun e e' => e.ends ≤ e'.time := by
  intro p x
  have hforward : Operation.Forward 0 duet := by decide
  have hquiet : ∀ tell, .onHit tell ∈ duet → Quiet tell := by
    intro tell htell
    simp only [duet, List.mem_cons, List.not_mem_nil, reduceCtorEq, Operation.onHit.injEq, or_false,
      false_or] at htell
    rw [htell]
    exact fun node v => rfl
  obtain ⟨-, hrecorded, hordered, -, hapart⟩ := events_chronological p ⟨[], .new⟩ duet hforward
  have hnone : HasSink.events Sink.new = [] := rfl
  refine ⟨hforward, by decide +kernel, ?_, by decide +kernel, hapart 0⟩
  rw [hrecorded hquiet, hnone, List.nil_append]
  exact hordered

end TuneBlocks
