import TuneBlocks.Proofs.Roster

/-!
# Conservation of threads

The threads in the queues of a scheduler, and those that halted, are the threads that were
scheduled, each once (`no_thread_lost`). The invariant is `Roster.Valid`; a pass keeps it because
every thread that was given a slice ends up in one place (`Grant.perm_those`).
-/

namespace TuneBlocks

namespace Roster

variable {σ : Type}

/-- The threads that have not halted. -/
def members (x : Roster σ) : List (Nat × Thread) := x.ready ++ x.asleep.map woken

/-- All threads: those in the queues, and those that halted as they were then. -/
def everyone (x : Roster σ) : List (Nat × Thread) :=
  x.members ++ Grant.those Status.isHalted x.log

/-- What a slice does not change about a thread. -/
def name (m : Nat × Thread) : Nat × String × String := (m.1, m.2.id, m.2.routine)

/-- What holds of a roster at all times. -/
structure Valid (x : Roster σ) : Prop where
  numbers : x.enrolled.map Prod.fst = List.range x.enrolled.length
  perm : (x.everyone.map name).Perm (x.enrolled.map name)
  final : x.log.Pairwise fun g g' => g.status = .halted → g'.number ≠ g.number

end Roster

namespace Grant

variable {σ : Type}

theorem those_cons (p : Status → Bool) (g : Grant σ) (gs : List (Grant σ)) :
    those p (g :: gs) =
      if p g.status then (g.number, g.after) :: those p gs else those p gs := by
  simp only [those, List.filter_cons]
  split <;> rfl

theorem those_append (p : Status → Bool) (gs gs' : List (Grant σ)) :
    those p (gs ++ gs') = those p gs ++ those p gs' := by
  simp only [those, List.filter_append, List.map_append]

theorem sleepers_cons (g : Grant σ) (gs : List (Grant σ)) :
    (sleepers (g :: gs)).map Roster.woken =
      match g.status with
      | .sleeping _ => (g.number, g.after) :: (sleepers gs).map Roster.woken
      | _ => (sleepers gs).map Roster.woken := by
  simp only [sleepers, List.filterMap_cons]
  cases g.status <;> rfl

/-- Every thread that was given a slice is somewhere afterwards, and only there. -/
theorem perm_those (gs : List (Grant σ)) :
    (those Status.isBreakpoint gs ++ (those Status.isReady gs ++
      ((sleepers gs).map Roster.woken ++ those Status.isHalted gs))).Perm
      (gs.map fun g => (g.number, g.after)) := by
  induction gs with
  | nil => exact .refl []
  | cons g gs ih =>
    simp only [those_cons, sleepers_cons, List.map_cons]
    cases g.status with
    | breakpoint node => exact ih.cons _
    | ready => exact List.perm_middle.trans (ih.cons _)
    | sleeping wake =>
      exact (List.Perm.append_left _ List.perm_middle).trans (List.perm_middle.trans (ih.cons _))
    | halted =>
      refine .trans (.append_left _ (.trans (.append_left _ List.perm_middle) List.perm_middle)) ?_
      exact List.perm_middle.trans (ih.cons _)

end Grant

namespace Roster

variable {σ : Type} {x : Roster σ}

theorem Valid.keep (h : x.Valid) (s w hready hasleep) : (x.keep s w hready hasleep).Valid :=
  ⟨h.numbers, h.perm, h.final⟩

theorem Valid.schedule (h : x.Valid) (id routine entry) : (x.schedule id routine entry).Valid := by
  refine ⟨?_, ?_, h.final⟩
  · simp [Roster.schedule, h.numbers, List.range_succ]
  · have hperm := h.perm
    simp only [Roster.schedule, everyone, members, List.append_assoc, List.map_append,
      List.map_cons] at hperm ⊢
    exact List.perm_middle.trans ((hperm.cons _).trans (List.perm_append_singleton _ _).symm)

theorem everyone_wake (x : Roster σ) : x.wake.everyone.Perm x.everyone := by
  refine .append_right _ ?_
  simp only [members, Roster.wake, List.append_assoc, ← List.map_append]
  exact .append_left _ (.map woken (List.filter_append_perm _ _))

theorem Valid.wake (h : x.Valid) : x.wake.Valid :=
  ⟨h.numbers, (x.everyone_wake.map name).trans h.perm, h.final⟩

theorem Valid.perm_range (h : x.Valid) :
    (x.everyone.map Prod.fst).Perm (List.range x.enrolled.length) := by
  have hperm := h.perm.map Prod.fst
  rw [List.map_map, List.map_map] at hperm
  rw [← h.numbers]
  exact hperm

theorem Valid.nodup (h : x.Valid) : (x.everyone.map Prod.fst).Nodup :=
  h.perm_range.nodup_iff.2 List.nodup_range

/-! ## Serving the queue -/

/-- The threads that a pass does not reach. -/
def others (ex : Executor σ) (budget count : Nat) (x : Roster σ) : List (Nat × Thread) :=
  x.ready.drop (x.granted ex budget count).length ++
    (x.asleep.map woken ++ Grant.those Status.isHalted x.log)

theorem granted_before (ex : Executor σ) (budget count : Nat) (x : Roster σ) :
    (x.granted ex budget count).map (fun g => (g.number, g.thread)) <+: x.ready :=
  (ex.grants_before budget x.scheduler.clock (x.ready.take count) x.world).trans
    ( List.take_prefix count x.ready)

theorem everyone_eq (ex : Executor σ) (budget count : Nat) (x : Roster σ) :
    x.everyone = (x.granted ex budget count).map (fun g => (g.number, g.thread)) ++
      x.others ex budget count := by
  have htake := List.prefix_iff_eq_take.1 (x.granted_before ex budget count)
  rw [List.length_map] at htake
  rw [htake, others, ← List.append_assoc, List.take_append_drop, ← List.append_assoc]
  rfl

/-- Those that had a slice are as it left them, and all others as they were. -/
theorem everyone_serve (ex : Executor σ) (budget count : Nat) (x : Roster σ) :
    (x.serve ex budget count).everyone.Perm
      ((x.granted ex budget count).map (fun g => (g.number, g.after)) ++
        x.others ex budget count) := by
  have hgs := Grant.perm_those (x.granted ex budget count)
  rw [List.perm_iff_count] at hgs ⊢
  intro m
  have hm := hgs m
  simp only [everyone, members, Roster.serve, others, Grant.those_append, List.map_append,
    List.count_append] at hm ⊢
  omega

theorem Valid.nodup_granted (h : x.Valid) (ex : Executor σ) (budget count : Nat) :
    ((x.granted ex budget count).map Grant.number ++
      (x.others ex budget count).map Prod.fst).Nodup := by
  have hnodup := h.nodup
  rw [everyone_eq ex budget count, List.map_append, List.map_map] at hnodup
  exact hnodup

theorem Valid.serve (h : x.Valid) (ex : Executor σ) (budget count : Nat) :
    (x.serve ex budget count).Valid := by
  refine ⟨h.numbers, ?_, ?_⟩
  · have hperm := h.perm
    rw [everyone_eq ex budget count, List.map_append, List.map_map] at hperm
    refine ((everyone_serve ex budget count x).map name).trans ?_
    rw [List.map_append, List.map_map]
    exact hperm
  · -- those that halted before are not in the queue, and nobody is served twice in a pass
    obtain ⟨hgranted, -, hdisjoint⟩ := List.nodup_append.1 (h.nodup_granted ex budget count)
    refine List.pairwise_append.2 ⟨h.final, ?_, ?_⟩
    · refine (List.pairwise_map.1 hgranted).imp ?_
      intro g g' hne _
      exact hne.symm
    · intro g hg g' hg' hhalted heq
      refine hdisjoint g'.number (List.mem_map_of_mem hg') g.number ?_ heq
      have hmem : (g.number, g.after) ∈ Grant.those Status.isHalted x.log := by
        refine List.mem_map_of_mem (List.mem_filter.2 ⟨hg, ?_⟩)
        rw [hhalted]
        rfl
      have hothers : (g.number, g.after) ∈ x.others ex budget count :=
        List.mem_append_right _ (List.mem_append_right _ hmem)
      exact List.mem_map_of_mem hothers

theorem valid_new (w : σ) : (new w).Valid := ⟨rfl, .refl [], .nil⟩

theorem Valid.perform (h : x.Valid) (ex : Executor σ) (op : Operation σ) :
    (x.perform ex op).Valid :=
  perform_induction (fun _ s w hready hasleep h => h.keep s w hready hasleep)
    (fun _ id routine entry h => h.schedule id routine entry) (fun _ h => h.wake)
    (fun _ budget count h => h.serve ex budget count) h op

theorem Valid.performAll (h : x.Valid) (ex : Executor σ) (ops : List (Operation σ)) :
    (x.performAll ex ops).Valid := by
  induction ops generalizing x with
  | nil => exact h
  | cons op ops ih => exact ih (h.perform ex op)

/-- The threads that some operations schedule. -/
def launched (ops : List (Operation σ)) : List Thread :=
  ops.filterMap fun
    | .schedule id routine entry => some ⟨id, routine, .start id entry⟩
    | _ => none

theorem enrolled_performAll (ex : Executor σ) (x : Roster σ) (ops : List (Operation σ)) :
    (x.performAll ex ops).enrolled =
      x.enrolled ++ (launched ops).mapIdx fun n t => (x.enrolled.length + n, t) := by
  induction ops generalizing x with
  | nil => exact (List.append_nil _).symm
  | cons op ops ih =>
    refine (ih (x.perform ex op)).trans ?_
    cases op with
    | schedule id routine entry =>
      simp [launched, Roster.perform, Roster.schedule, Nat.add_assoc, Nat.add_comm 1]
    | _ => rfl

theorem enrolled_new (ex : Executor σ) (w : σ) (ops : List (Operation σ)) :
    ((new w).performAll ex ops).enrolled = (launched ops).mapIdx Prod.mk := by
  rw [enrolled_performAll]
  simp [new]

theorem members_eq (x : Roster σ) : x.members.map Prod.snd = x.scheduler.threads := by
  rw [members, List.map_append, x.ready_eq, Scheduler.threads, ← x.asleep_eq, List.map_map,
    List.map_map]
  rfl

theorem isIdle_iff (x : Roster σ) : x.scheduler.isIdle = true ↔ x.members = [] := by
  rw [← List.map_eq_nil_iff (f := Prod.snd), members_eq, Scheduler.isIdle, Scheduler.threads,
    List.append_eq_nil_iff, List.map_eq_nil_iff, Bool.and_eq_true, List.isEmpty_iff,
    List.isEmpty_iff]

theorem mem_halted_iff {log : List (Grant σ)} {n : Nat} :
    n ∈ (Grant.those Status.isHalted log).map Prod.fst ↔
      ∃ g ∈ log, g.number = n ∧ g.status = .halted := by
  constructor
  · intro h
    obtain ⟨m, hm, rfl⟩ := List.mem_map.1 h
    obtain ⟨g, hg, rfl⟩ := List.mem_map.1 hm
    obtain ⟨hlog, hhalted⟩ := List.mem_filter.1 hg
    refine ⟨g, hlog, rfl, ?_⟩
    cases hstatus : g.status <;> rw [hstatus] at hhalted <;> first | rfl | cases hhalted
  · rintro ⟨g, hg, rfl, hhalted⟩
    refine List.mem_map_of_mem (List.mem_map_of_mem (List.mem_filter.2 ⟨hg, ?_⟩))
    rw [hhalted]
    rfl

/-- The account of a scheduler that has performed some operations. -/
structure Account (x : Roster σ) (ops : List (Operation σ)) : Prop where
  /-- The threads in the queues and those that halted are together those that were scheduled. -/
  conserved : (x.everyone.map name).Perm (((launched ops).mapIdx Prod.mk).map name)
  /-- No thread is in both queues, or twice in one. -/
  distinct : (x.ready.map Prod.fst ++ x.asleep.map Prod.fst).Nodup
  /-- No slice of a thread comes after one that halted it. -/
  final : x.log.Pairwise fun g g' => g.status = .halted → g'.number ≠ g.number
  idle_iff : x.scheduler.isIdle = true ↔
    ∀ n < (launched ops).length, ∃ g ∈ x.log, g.number = n ∧ g.status = .halted

theorem Valid.account (h : x.Valid) {ops : List (Operation σ)}
    (henrolled : x.enrolled = (launched ops).mapIdx Prod.mk) : x.Account ops := by
  have hperm := h.perm
  rw [henrolled] at hperm
  have hnodup := h.nodup
  have hnumbers : ∀ n, n ∈ x.everyone.map Prod.fst ↔ n < (launched ops).length := by
    intro n
    have hlength := congrArg List.length henrolled
    rw [List.length_mapIdx] at hlength
    rw [h.perm_range.mem_iff, hlength, List.mem_range]
  rw [everyone, List.map_append] at hnodup hnumbers
  obtain ⟨hmembers, -, hdisjoint⟩ := List.nodup_append.1 hnodup
  refine ⟨hperm, ?_, h.final, ?_⟩
  · rw [members, List.map_append, List.map_map] at hmembers
    exact hmembers
  · rw [isIdle_iff]
    constructor
    · intro hidle n hn
      have hmem := (hnumbers n).2 hn
      rw [hidle, List.map_nil, List.nil_append] at hmem
      exact mem_halted_iff.1 hmem
    · intro hall
      refine List.eq_nil_iff_forall_not_mem.2 fun m hm => ?_
      have hnumber := List.mem_map_of_mem (f := Prod.fst) hm
      have hn := (hnumbers m.1).1 (List.mem_append_left _ hnumber)
      have hhalted := mem_halted_iff.2 (hall m.1 hn)
      exact hdisjoint m.1 hnumber m.1 hhalted rfl

end Roster

/-- **No thread is lost or duplicated**, whatever executes the slices. -/
theorem Scheduler.no_thread_lost {σ : Type} (ex : Executor σ) (w : σ) (ops : List (Operation σ)) :
    let x := (Roster.new w).performAll ex ops
    (x.scheduler, x.world) = Scheduler.new.performAll ex w ops ∧
      x.members.map Prod.snd = x.scheduler.threads ∧ x.Account ops := by
  intro x
  have hvalid : x.Valid := (Roster.valid_new w).performAll ex ops
  exact ⟨(Roster.new w).performAll_eq ex ops, x.members_eq,
    hvalid.account (Roster.enrolled_new ex w ops)⟩

end TuneBlocks
