import TuneBlocks.Proofs.Conservation
import TuneBlocks.Proofs.FloatOrder
import TuneBlocks.Proofs.Soundness

/-!
# Sleeping and waking

A thread that falls asleep stays in its queue until an operation finds that its time has come
(`Roster.mem_asleep_performAll`), is ready before the first slice of that operation
(`Roster.mem_ready_awake`), and gets its turn in it unless a breakpoint stops the pass first
(`Executor.grant_or_hit`). Its next slice is not early, as long as the clock does not go back:
`Roster.Waits` is what holds until then.
-/

namespace TuneBlocks

namespace Operation

variable {σ : Type}

/-- The time at which an operation looks for sleepers that are due. -/
def moment? (clock : Float) : Operation σ → Option Float
  | .pulse delta _ => some (clock + delta)
  | .step => some clock
  | _ => none

def clockAfter (clock : Float) (op : Operation σ) : Float := (op.moment? clock).getD clock

/-- The times at which some operations look for sleepers. -/
def moments (clock : Float) : List (Operation σ) → List Float
  | [] => []
  | op :: ops => (op.moment? clock).toList ++ moments (op.clockAfter clock) ops

/-- The clock never decreases. -/
def Forward (clock : Float) : List (Operation σ) → Prop
  | [] => True
  | op :: ops => clock ≤ op.clockAfter clock ∧ Forward (op.clockAfter clock) ops

end Operation

namespace Executor

variable {σ : Type} {ex : Executor σ} {budget : Nat} {now : Float}

/-- A thread of the queue gets its slice, or one before it stops at a breakpoint. -/
theorem grant_or_hit {queue : List (Nat × Thread)} {m : Nat × Thread} (hm : m ∈ queue) (w : σ) :
    (∃ g ∈ ex.grants budget now queue w, (g.number, g.thread) = m) ∨
      ∃ g ∈ ex.grants budget now queue w, g.status.isBreakpoint = true ∧
        [(g.number, g.thread), m].Sublist queue := by
  induction queue generalizing w with
  | nil => exact absurd hm List.not_mem_nil
  | cons first queue ih =>
    rcases List.mem_cons.1 hm with rfl | hm
    · left
      cases h : (ex.grant budget now w m).status.isBreakpoint with
      | true =>
        rw [grants_cons_of_hit h]
        exact ⟨_, List.mem_singleton_self _, rfl⟩
      | false =>
        rw [grants_cons h]
        exact ⟨_, List.mem_cons_self, rfl⟩
    · cases h : (ex.grant budget now w first).status.isBreakpoint with
      | true =>
        right
        rw [grants_cons_of_hit h]
        refine ⟨_, List.mem_singleton_self _, h, ?_⟩
        exact List.Sublist.cons_cons _ (List.singleton_sublist.2 hm)
      | false =>
        rw [grants_cons h]
        rcases ih hm (ex.grant budget now w first).result.world with
          ⟨g, hg, heq⟩ | ⟨g, hg, hhit, hbefore⟩
        · exact .inl ⟨g, List.mem_cons_of_mem _ hg, heq⟩
        · exact .inr ⟨g, List.mem_cons_of_mem _ hg, hhit, hbefore.cons _⟩

end Executor

theorem Grant.mem_sleepers {σ : Type} {gs : List (Grant σ)} {g : Grant σ} (hg : g ∈ gs)
    {wake : Float} (hstatus : g.status = .sleeping wake) :
    (g.number, ⟨g.after, wake⟩) ∈ sleepers gs := by
  refine List.mem_filterMap.2 ⟨g, hg, ?_⟩
  rw [hstatus]

namespace Roster

variable {σ : Type} {ex : Executor σ} {x : Roster σ} {op : Operation σ} {n : Nat} {t : Thread}
  {wake : Float}

/-! ## What an operation does to a thread that waits -/

theorem clock_awake (x : Roster σ) (op : Operation σ) :
    (x.awake op).scheduler.clock = op.clockAfter x.scheduler.clock := by
  cases op <;> rfl

theorem clock_perform (ex : Executor σ) (x : Roster σ) (op : Operation σ) :
    (x.perform ex op).scheduler.clock = op.clockAfter x.scheduler.clock := by
  rw [← clock_awake]
  cases op with
  | pulse delta budget => exact (Scheduler.runSlices_keeps ..).1
  | step => exact (Scheduler.runSlices_keeps ex 1 _ (x.awake .step).scheduler _).1
  | _ => rfl

theorem mem_asleep_awake (h : (n, ⟨t, wake⟩) ∈ x.asleep)
    (hop : ∀ now ∈ (op.moment? x.scheduler.clock).toList, ¬ wake ≤ now) :
    (n, ⟨t, wake⟩) ∈ (x.awake op).asleep := by
  have hpending : ∀ now, ¬ wake ≤ now → (!isDue now (n, ⟨t, wake⟩)) = true := by
    intro now hnow
    rw [isDue, decide_eq_false hnow]
    rfl
  cases op with
  | pulse delta budget =>
    exact List.mem_filter.2 ⟨h, hpending _ (hop _ (List.mem_singleton_self _))⟩
  | step => exact List.mem_filter.2 ⟨h, hpending _ (hop _ (List.mem_singleton_self _))⟩
  | _ => exact h

theorem mem_ready_awake (h : (n, ⟨t, wake⟩) ∈ x.asleep) {now : Float}
    (hnow : op.moment? x.scheduler.clock = some now) (hdue : wake ≤ now) :
    (n, t) ∈ (x.awake op).ready := by
  have hwoken : (n, t) ∈ (x.asleep.filter (isDue now)).map woken :=
    List.mem_map.2 ⟨_, List.mem_filter.2 ⟨h, decide_eq_true hdue⟩, rfl⟩
  cases op with
  | pulse delta budget =>
    cases hnow
    exact List.mem_append_right _ hwoken
  | step =>
    cases hnow
    exact List.mem_append_right _ hwoken
  | _ => cases hnow

theorem ready_subset_awake (h : (n, t) ∈ x.ready) : (n, t) ∈ (x.awake op).ready := by
  cases op with
  | pulse delta budget => exact List.mem_append_left _ h
  | step => exact List.mem_append_left _ h
  | _ => exact h

theorem mem_asleep_perform (h : (n, ⟨t, wake⟩) ∈ (x.awake op).asleep) :
    (n, ⟨t, wake⟩) ∈ (x.perform ex op).asleep := by
  cases op with
  | pulse delta budget => exact List.mem_append_left _ h
  | step => exact List.mem_append_left _ h
  | _ => exact h

theorem mem_ready_serve (h : (n, t) ∈ x.ready) {budget count : Nat}
    (hothers : ∀ g ∈ x.granted ex budget count, g.number ≠ n) :
    (n, t) ∈ (x.serve ex budget count).ready := by
  have htake := List.prefix_iff_eq_take.1 (x.granted_before ex budget count)
  rw [List.length_map] at htake
  rw [← List.take_append_drop (x.granted ex budget count).length x.ready, ← htake] at h
  rcases List.mem_append.1 h with h | h
  · obtain ⟨g, hg, heq⟩ := List.mem_map.1 h
    exact absurd (congrArg Prod.fst heq) (hothers g hg)
  · exact List.mem_append_left _ (List.mem_append_right _ h)

theorem mem_ready_perform (h : (n, t) ∈ (x.awake op).ready)
    (hothers : ∀ g ∈ x.grants ex op, g.number ≠ n) : (n, t) ∈ (x.perform ex op).ready := by
  cases op with
  | schedule id routine entry => exact List.mem_append_left _ h
  | pulse delta budget => exact mem_ready_serve h hothers
  | step => exact mem_ready_serve h hothers
  | _ => exact h

theorem mem_asleep_of_grant {g : Grant σ} (hg : g ∈ x.grants ex op)
    (hstatus : g.status = .sleeping wake) :
    (g.number, ⟨g.after, wake⟩) ∈ (x.perform ex op).asleep := by
  have hsleepers := Grant.mem_sleepers hg hstatus
  cases op with
  | pulse delta budget => exact List.mem_append_right _ hsleepers
  | step => exact List.mem_append_right _ hsleepers
  | _ => exact absurd hg List.not_mem_nil

/-! ## Runs -/

/-- The slices of some operations. -/
def slices (ex : Executor σ) : Roster σ → List (Operation σ) → List (Grant σ)
  | _, [] => []
  | x, op :: ops => x.grants ex op ++ slices ex (x.perform ex op) ops

theorem performAll_concat (ex : Executor σ) (x : Roster σ) (ops : List (Operation σ))
    (op : Operation σ) : x.performAll ex (ops ++ [op]) = (x.performAll ex ops).perform ex op :=
  List.foldl_append

/-- A sleeper stays asleep as long as its time has not come. -/
theorem mem_asleep_performAll (h : (n, ⟨t, wake⟩) ∈ x.asleep) {ops : List (Operation σ)}
    (hops : ∀ now ∈ Operation.moments x.scheduler.clock ops, ¬ wake ≤ now) :
    (n, ⟨t, wake⟩) ∈ (x.performAll ex ops).asleep := by
  induction ops generalizing x with
  | nil => exact h
  | cons op ops ih =>
    refine ih (mem_asleep_perform (mem_asleep_awake h fun now hnow => ?_)) fun now hnow => ?_
    · exact hops now (List.mem_append_left _ hnow)
    · rw [clock_perform] at hnow
      exact hops now (List.mem_append_right _ hnow)

/-- The thread is asleep, or its time has come. -/
def Waits (x : Roster σ) (n : Nat) (t : Thread) (wake : Float) : Prop :=
  (n, ⟨t, wake⟩) ∈ x.asleep ∨ (n, t) ∈ x.ready ∧ wake ≤ x.scheduler.clock

theorem Waits.awake (h : x.Waits n t wake)
    (hforward : x.scheduler.clock ≤ op.clockAfter x.scheduler.clock) :
    (x.awake op).Waits n t wake := by
  rcases h with hasleep | ⟨hready, hdue⟩
  · by_cases hnow : ∀ now ∈ (op.moment? x.scheduler.clock).toList, ¬ wake ≤ now
    · exact .inl (mem_asleep_awake hasleep hnow)
    · simp only [Option.mem_toList, Classical.not_forall, Classical.not_not] at hnow
      obtain ⟨now, hmoment, hdue⟩ := hnow
      refine .inr ⟨mem_ready_awake hasleep hmoment hdue, ?_⟩
      rw [clock_awake, Operation.clockAfter, hmoment]
      exact hdue
  · rw [← clock_awake] at hforward
    exact .inr ⟨ready_subset_awake hready, float_le_trans hdue hforward⟩

theorem Waits.perform (h : x.Waits n t wake)
    (hforward : x.scheduler.clock ≤ op.clockAfter x.scheduler.clock)
    (hothers : ∀ g ∈ x.grants ex op, g.number ≠ n) : (x.perform ex op).Waits n t wake := by
  rcases h.awake hforward with hasleep | ⟨hready, hdue⟩
  · exact .inl (mem_asleep_perform hasleep)
  · rw [clock_awake, ← clock_perform ex] at hdue
    exact .inr ⟨mem_ready_perform hready hothers, hdue⟩

theorem Valid.awake (h : x.Valid) (op : Operation σ) : (x.awake op).Valid := by
  cases op with
  | pulse delta budget => exact (h.keep _ _ _ _).wake
  | step => exact (h.keep _ _ _ _).wake
  | _ => exact h

theorem Valid.not_asleep (h : x.Valid) (hready : (n, t) ∈ x.ready) {s : Sleeper} :
    (n, s) ∉ x.asleep := by
  intro hasleep
  have hnodup := h.nodup
  rw [everyone, members, List.append_assoc, List.map_append] at hnodup
  obtain ⟨-, -, hdisjoint⟩ := List.nodup_append.1 hnodup
  refine hdisjoint n (List.mem_map_of_mem hready) n ?_ rfl
  exact List.mem_map_of_mem (List.mem_append_left _ (List.mem_map_of_mem (f := woken) hasleep))

/-- A thread that waits is not given a slice early. -/
theorem Waits.le_now (h : x.Waits n t wake) (hvalid : x.Valid)
    (hforward : x.scheduler.clock ≤ op.clockAfter x.scheduler.clock) {g : Grant σ}
    (hg : g ∈ x.grants ex op) (hnumber : g.number = n) : wake ≤ g.now := by
  have hnow : g.now = (x.awake op).scheduler.clock := by
    obtain ⟨w, m, rfl⟩ := Executor.exists_of_mem_grants hg
    rfl
  have hready : (g.number, g.thread) ∈ (x.awake op).ready :=
    (granted_before ex _ _ (x.awake op)).subset (List.mem_map_of_mem hg)
  rw [hnumber] at hready
  rcases h.awake hforward with hasleep | ⟨-, hdue⟩
  · exact absurd hasleep ((hvalid.awake op).not_asleep hready)
  · rwa [hnow]

theorem Waits.le_next (h : x.Waits n t wake) (hvalid : x.Valid) {ops : List (Operation σ)}
    (hforward : Operation.Forward x.scheduler.clock (ops ++ [op]))
    (hothers : ∀ g ∈ x.slices ex ops, g.number ≠ n) {g : Grant σ}
    (hg : g ∈ (x.performAll ex ops).grants ex op) (hnumber : g.number = n) : wake ≤ g.now := by
  induction ops generalizing x with
  | nil => exact h.le_now hvalid hforward.1 hg hnumber
  | cons first ops ih =>
    obtain ⟨hfirst, hrest⟩ := hforward
    have hnext := h.perform hfirst fun g hg => hothers g (List.mem_append_left _ hg)
    rw [← clock_perform ex] at hrest
    exact ih hnext (hvalid.perform ex first) hrest
      (fun g hg => hothers g (List.mem_append_right _ hg)) hg

/-- A thread that has just fallen asleep will wake on time, whatever is done next. -/
structure Punctual (ex : Executor σ) (x : Roster σ) (n : Nat) (t : Thread) (wake : Float) :
    Prop where
  /-- It sleeps, unchanged, while no time reaches that of its waking. -/
  sleeps : ∀ ops, (∀ now ∈ Operation.moments x.scheduler.clock ops, ¬ wake ≤ now) →
    (n, ⟨t, wake⟩) ∈ (x.performAll ex ops).asleep
  /-- The first operation at such a time makes it ready before any slice. -/
  wakes : ∀ ops, (∀ now ∈ Operation.moments x.scheduler.clock ops, ¬ wake ≤ now) →
    ∀ op now, op.moment? (x.performAll ex ops).scheduler.clock = some now → wake ≤ now →
      (n, t) ∈ ((x.performAll ex ops).awake op).ready
  /-- If that is a pulse, the thread gets a slice in it, unless the scheduler is paused or a thread
  in front of it stops at a breakpoint. -/
  runs : ∀ ops, (∀ now ∈ Operation.moments x.scheduler.clock ops, ¬ wake ≤ now) →
    let y := x.performAll ex ops
    ∀ delta budget, wake ≤ y.scheduler.clock + delta →
      (y.scheduler.paused && 1 < budget) = false →
      (∀ g ∈ y.grants ex (.pulse delta budget), g.status.isBreakpoint = true →
        ¬ [(g.number, g.thread), (n, t)].Sublist (y.awake (.pulse delta budget)).ready) →
      ∃ g ∈ y.grants ex (.pulse delta budget), g.number = n ∧ g.thread = t
  /-- Its next slice is not early, if the clock does not go back. -/
  not_early : ∀ ops op, Operation.Forward x.scheduler.clock (ops ++ [op]) →
    (∀ g ∈ x.slices ex ops, g.number ≠ n) →
    ∀ g ∈ (x.performAll ex ops).grants ex op, g.number = n → wake ≤ g.now

theorem punctual_of_asleep (hvalid : x.Valid) (h : (n, ⟨t, wake⟩) ∈ x.asleep) :
    x.Punctual ex n t wake := by
  refine ⟨fun ops hops => ?_, fun ops hops op now hnow hdue => ?_, ?_, ?_⟩
  · exact mem_asleep_performAll h hops
  · exact mem_ready_awake (mem_asleep_performAll h hops) hnow hdue
  · intro ops hops y delta budget hdue hpaused hfree
    have hready : (n, t) ∈ (y.awake (.pulse delta budget)).ready :=
      mem_ready_awake (mem_asleep_performAll h hops) rfl hdue
    have hrunning := mt Scheduler.withheld_iff.2 (Bool.eq_false_iff.1 hpaused)
    rw [grants_pulse ex hrunning] at hfree ⊢
    rcases Executor.grant_or_hit hready y.world with ⟨g, hg, heq⟩ | ⟨g, hg, hhit, hbefore⟩
    · exact ⟨g, hg, congrArg Prod.fst heq, congrArg Prod.snd heq⟩
    · exact absurd hbefore (hfree g hg hhit)
  · intro ops op hforward hothers g hg hnumber
    exact Waits.le_next (.inl h) hvalid hforward hothers hg hnumber

end Roster

/-- **Threads wake neither early nor late**, whatever executes the slices. -/
theorem Scheduler.wakes_on_time {σ : Type} (ex : Executor σ) (w : σ)
    (before : List (Operation σ)) (op : Operation σ) (g : Grant σ)
    (hg : g ∈ ((Roster.new w).performAll ex before).grants ex op) (wake : Float)
    (hstatus : g.status = .sleeping wake) :
    let x := (Roster.new w).performAll ex (before ++ [op])
    (x.scheduler, x.world) = Scheduler.new.performAll ex w (before ++ [op]) ∧
      x.Punctual ex g.number g.after wake := by
  intro x
  have hvalid : x.Valid := (Roster.valid_new w).performAll ex (before ++ [op])
  refine ⟨(Roster.new w).performAll_eq ex _, Roster.punctual_of_asleep hvalid ?_⟩
  have hasleep := Roster.mem_asleep_of_grant hg hstatus
  rwa [← Roster.performAll_concat] at hasleep

-- The note is as short as can be, so its end is due at once; the thread sleeps until the next pulse
-- all the same.
theorem Scheduler.wakes_on_time_playThrice :
    let ex := Interpreter.playThrice.executor
    let before : List (Operation (Machine Sink)) := [.schedule "main" "main" "again"]
    let x := (Roster.new ⟨[], .new⟩).performAll ex (before ++ [.pulse 16 10])
    ∃ g ∈ ((Roster.new ⟨[], .new⟩).performAll ex before).grants ex (.pulse 16 10),
      g.status = .sleeping 16 ∧ x.Punctual ex g.number g.after 16 ∧
        (g.number, ⟨g.after, 16⟩) ∈ (x.performAll ex [.pause, .resume]).asleep := by
  intro ex before x
  have hsleeps : ∃ g ∈ ((Roster.new ⟨[], .new⟩).performAll ex before).grants ex (.pulse 16 10),
      g.status = .sleeping 16 := by decide
  obtain ⟨g, hg, hstatus⟩ := hsleeps
  have hpunctual := (wakes_on_time ex _ before _ g hg 16 hstatus).2
  exact ⟨g, hg, hstatus, hpunctual, hpunctual.sleeps _ fun _ hnow => absurd hnow List.not_mem_nil⟩

end TuneBlocks
