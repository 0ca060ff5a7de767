import TuneBlocks.Proofs.Roster

/-!
# Records of runs

An executor may keep a record beside its world, in which it enters something of each slice
(`Recording`). The record changes nothing about a run: apart from it, the run is that of an executor
that keeps none, operation by operation (`Recording.perform_eq`). Nor does it say more than the log
of the run, whose slices have all its entries (`Recording.performAll_eq`).
-/

namespace TuneBlocks

variable {σ τ ρ : Type}

/-- The scheduler for worlds of another kind, in which breakpoints are told of in another way. -/
def Scheduler.mapTell (f : (NodeId → σ → σ) → NodeId → τ → τ) (s : Scheduler σ) :
    Scheduler τ where
  ready := s.ready
  asleep := s.asleep
  clock := s.clock
  paused := s.paused
  onHit := s.onHit.map f

def Operation.mapTell (f : (NodeId → σ → σ) → NodeId → τ → τ) : Operation σ → Operation τ
  | .schedule id routine entry => .schedule id routine entry
  | .pulse delta budget => .pulse delta budget
  | .step => .step
  | .pause => .pause
  | .resume => .resume
  | .setBreakpoints breakpoints => .setBreakpoints breakpoints
  | .onHit tell => .onHit (f tell)

/-- The executor `ex'` does what `ex` does and keeps a record beside the world. -/
structure Recording (ex : Executor σ) (ex' : Executor τ) (ρ : Type) where
  /-- A world with a record beside it. -/
  beside : σ → List ρ → τ
  /-- What is entered of a slice. -/
  ofSlice : Grant σ → List ρ
  /-- What is entered of a breakpoint that is told of. -/
  ofHit : NodeId → List ρ
  tell : (NodeId → σ → σ) → NodeId → τ → τ
  slice_eq : ∀ budget now w l (m : Nat × Thread),
    ex'.slice m.2.id m.2.routine m.2.context budget now (beside w l) =
      let result := ex.slice m.2.id m.2.routine m.2.context budget now w
      ⟨result.status, result.context,
        beside result.world (l ++ ofSlice (ex.grant budget now w m))⟩
  setBreakpoints_eq : ∀ breakpoints w l,
    ex'.setBreakpoints breakpoints (beside w l) = beside (ex.setBreakpoints breakpoints w) l
  tell_eq : ∀ f node w l, tell f node (beside w l) = beside (f node w) (l ++ ofHit node)

/-- The executor, which also enters something of each slice in a record beside its world. -/
def Executor.entering (entry : Thread → Nat → Float → SliceEnd σ → ρ) (ex : Executor σ) :
    Executor (σ × List ρ) where
  slice id routine c budget now w :=
    let result := ex.slice id routine c budget now w.1
    ⟨result.status, result.context,
      (result.world, w.2 ++ [entry ⟨id, routine, c⟩ budget now result])⟩
  setBreakpoints breakpoints w := (ex.setBreakpoints breakpoints w.1, w.2)

namespace Recording

def entering (entry : Thread → Nat → Float → SliceEnd σ → ρ) (ofHit : NodeId → List ρ)
    (ex : Executor σ) : Recording ex (ex.entering entry) ρ where
  beside := Prod.mk
  ofSlice g := [entry g.thread g.budget g.now g.result]
  ofHit := ofHit
  tell f node w := (f node w.1, w.2 ++ ofHit node)
  slice_eq _ _ _ _ _ := rfl
  setBreakpoints_eq _ _ _ := rfl
  tell_eq _ _ _ _ := rfl

variable {ex : Executor σ} {ex' : Executor τ} (R : Recording ex ex' ρ)

/-- What is entered of a slice, and of its breakpoint if somebody is told of that. -/
def ofGrant (tell? : Option (NodeId → σ → σ)) (g : Grant σ) : List ρ :=
  match g.status, tell? with
  | .breakpoint node, some _ => R.ofSlice g ++ R.ofHit node
  | _, _ => R.ofSlice g

theorem ofGrant_of_not_hit {g : Grant σ} (h : g.status.isBreakpoint = false)
    (tell? : Option (NodeId → σ → σ)) : R.ofGrant tell? g = R.ofSlice g := by
  unfold ofGrant
  split
  · rename_i hstatus
    rw [hstatus] at h
    cases h
  · rfl

theorem ofGrant_of_hit {g : Grant σ} {node : NodeId} (h : g.status = .breakpoint node)
    (tell? : Option (NodeId → σ → σ)) :
    R.ofGrant tell? g = R.ofSlice g ++ tell?.toList.flatMap fun _ => R.ofHit node := by
  unfold ofGrant
  rw [h]
  cases tell? with
  | none => exact (List.append_nil _).symm
  | some tell => exact congrArg _ (List.append_nil _).symm

theorem ofGrant_eq (h : ∀ node, R.ofHit node = []) (tell? : Option (NodeId → σ → σ))
    (g : Grant σ) : R.ofGrant tell? g = R.ofSlice g := by
  unfold ofGrant
  split
  · rw [h, List.append_nil]
  · rfl

/-! ## Slices -/

theorem status_grant (budget : Nat) (now : Float) (w : σ) (l : List ρ) (m : Nat × Thread) :
    (ex'.grant budget now (R.beside w l) m).status = (ex.grant budget now w m).status :=
  congrArg SliceEnd.status (R.slice_eq budget now w l m)

theorem leaves_grant (tell? : Option (NodeId → σ → σ)) (budget : Nat) (now : Float) (w : σ)
    (l : List ρ) (m : Nat × Thread) :
    (ex'.grant budget now (R.beside w l) m).leaves (tell?.map R.tell) =
      R.beside ((ex.grant budget now w m).leaves tell?)
        (l ++ R.ofGrant tell? (ex.grant budget now w m)) := by
  have hworld : (ex'.grant budget now (R.beside w l) m).result.world =
      R.beside (ex.grant budget now w m).result.world
        (l ++ R.ofSlice (ex.grant budget now w m)) :=
    congrArg SliceEnd.world (R.slice_eq budget now w l m)
  unfold Grant.leaves ofGrant
  rw [R.status_grant, hworld]
  cases (ex.grant budget now w m).status with
  | breakpoint node =>
    cases tell? with
    | none => rfl
    | some tell => exact (R.tell_eq tell node _ _).trans (by rw [List.append_assoc])
  | _ => rfl

theorem worldAfter_grants (tell? : Option (NodeId → σ → σ)) (budget : Nat) (now : Float)
    (queue : List (Nat × Thread)) (w : σ) (l : List ρ) :
    Grant.worldAfter (tell?.map R.tell) (R.beside w l)
        (ex'.grants budget now queue (R.beside w l)) =
      R.beside (Grant.worldAfter tell? w (ex.grants budget now queue w))
        (l ++ (ex.grants budget now queue w).flatMap (R.ofGrant tell?)) := by
  induction queue generalizing w l with
  | nil => exact congrArg (R.beside w) (List.append_nil l).symm
  | cons m queue ih =>
    have hstatus := R.status_grant budget now w l m
    have hleaves := R.leaves_grant tell? budget now w l m
    cases h : (ex.grant budget now w m).status.isBreakpoint with
    | true =>
      rw [Executor.grants_cons_of_hit h, Executor.grants_cons_of_hit (hstatus ▸ h),
        List.flatMap_singleton]
      exact hleaves
    | false =>
      rw [Grant.leaves_of_not_hit (hstatus ▸ h), Grant.leaves_of_not_hit h] at hleaves
      rw [Executor.grants_cons h, Executor.grants_cons (hstatus ▸ h), List.flatMap_cons,
        ← List.append_assoc, hleaves]
      simp only [Grant.worldAfter, List.foldl_cons, Grant.leaves_of_not_hit h,
        Grant.leaves_of_not_hit (hstatus ▸ h), hleaves]
      exact ih _ _

/-- The threads of a queue fare alike. -/
theorem pass_eq (budget : Nat) (now : Float) (queue : List (Nat × Thread)) (w : σ) (l : List ρ) :
    let p := ex.pass budget now (queue.map Prod.snd) w
    let p' := ex'.pass budget now (queue.map Prod.snd) (R.beside w l)
    p'.done = p.done ∧ p'.hit = p.hit ∧ p'.rest = p.rest := by
  induction queue generalizing w l with
  | nil => exact ⟨rfl, rfl, rfl⟩
  | cons m queue ih =>
    simp only [List.map_cons, Executor.pass, R.slice_eq]
    split
    · exact ⟨rfl, rfl, rfl⟩
    · obtain ⟨hdone, hhit, hrest⟩ := ih (ex.slice m.2.id m.2.routine m.2.context budget now w).world
        (l ++ R.ofSlice (ex.grant budget now w m))
      exact ⟨congrArg _ hdone, hhit, hrest⟩

theorem afterPass_eq (s : Scheduler σ) (back : List Thread) {p : Pass σ} {p' : Pass τ}
    (h : p'.done = p.done ∧ p'.hit = p.hit ∧ p'.rest = p.rest) :
    ((s.mapTell R.tell).afterPass back p').1 = (s.afterPass back p).1.mapTell R.tell := by
  obtain ⟨hdone, hhit, hrest⟩ := h
  simp only [Scheduler.afterPass, hdone, hhit, hrest]
  cases p.hit with
  | none => rfl
  | some hit => rfl

theorem runSlices_eq (x : Roster σ) (budget count : Nat) (l : List ρ) :
    (x.scheduler.mapTell R.tell).runSlices ex' budget (x.ready.take count).length
        (R.beside x.world l) =
      ((x.serve ex budget count).scheduler.mapTell R.tell,
        R.beside (x.serve ex budget count).world
          (l ++ (x.granted ex budget count).flatMap (R.ofGrant x.scheduler.onHit))) := by
  have hslices := Scheduler.runSlices_eq ex budget _ _ x.scheduler x.world (x.ready_split count)
  have hslices' := Scheduler.runSlices_eq ex' budget _ _ (x.scheduler.mapTell R.tell)
    (R.beside x.world l) (x.ready_split count)
  rw [List.length_map] at hslices hslices'
  rw [hslices']
  refine Prod.ext ?_ ?_
  · exact (R.afterPass_eq x.scheduler _ (R.pass_eq budget x.scheduler.clock _ x.world l)).trans
      (congrArg (fun p => p.1.mapTell R.tell) hslices.symm)
  · rw [Scheduler.world_afterPass]
    exact R.worldAfter_grants x.scheduler.onHit budget x.scheduler.clock _ x.world l

/-! ## Operations -/

/-- **A record changes nothing about a run.** -/
theorem perform_eq (x : Roster σ) (op : Operation σ) (l : List ρ) :
    (x.scheduler.mapTell R.tell).perform ex' (R.beside x.world l) (op.mapTell R.tell) =
      ((x.perform ex op).scheduler.mapTell R.tell,
        R.beside (x.perform ex op).world
          (l ++ (x.grants ex op).flatMap (R.ofGrant x.scheduler.onHit))) := by
  have hserved := R.runSlices_eq (x.awake op) ((x.awake op).share op).1 ((x.awake op).share op).2 l
  cases op with
  | pulse delta budget =>
    rw [Roster.length_share_pulse] at hserved
    exact (Scheduler.pulse_eq_runSlices ..).trans hserved
  | step =>
    rw [Roster.length_share_step] at hserved
    have hone := (Scheduler.runSlices_one ex' 1 ((x.awake .step).scheduler.mapTell R.tell)
      (R.beside x.world l)).trans hserved
    exact Prod.ext (congrArg (fun p => p.1.pause) hone) (congrArg (fun p => p.2) hone)
  | setBreakpoints breakpoints =>
    refine Prod.ext rfl ((R.setBreakpoints_eq breakpoints x.world l).trans ?_)
    exact congrArg (R.beside _) (List.append_nil l).symm
  | _ => exact Prod.ext rfl (congrArg (R.beside x.world) (List.append_nil l).symm)

theorem performAll_roster (h : ∀ node, R.ofHit node = []) (x : Roster σ) (ops : List (Operation σ))
    (l : List ρ) :
    (x.scheduler.mapTell R.tell).performAll ex' (R.beside x.world (l ++ x.log.flatMap R.ofSlice))
        (ops.map (Operation.mapTell R.tell)) =
      ((x.performAll ex ops).scheduler.mapTell R.tell,
        R.beside (x.performAll ex ops).world
          (l ++ (x.performAll ex ops).log.flatMap R.ofSlice)) := by
  induction ops generalizing x with
  | nil => rfl
  | cons op ops ih =>
    have hop := R.perform_eq x op (l ++ x.log.flatMap R.ofSlice)
    rw [funext (R.ofGrant_eq h _), List.append_assoc, ← List.flatMap_append,
      ← Roster.log_perform] at hop
    rw [List.map_cons, Scheduler.performAll, hop]
    exact ih (x.perform ex op)

/-- **A record leaves a run as it is, and says what stands in the log**, if nothing is entered of
breakpoints. -/
theorem performAll_eq (h : ∀ node, R.ofHit node = []) (s : Scheduler σ) (w : σ)
    (ops : List (Operation σ)) (l : List ρ) :
    (s.mapTell R.tell).performAll ex' (R.beside w l) (ops.map (Operation.mapTell R.tell)) =
      ((s.performAll ex w ops).1.mapTell R.tell,
        R.beside (s.performAll ex w ops).2
          (l ++ ((Roster.of s w).performAll ex ops).log.flatMap R.ofSlice)) := by
  have hroster := R.performAll_roster h (Roster.of s w) ops l
  have hplain : _ = s.performAll ex w ops := (Roster.of s w).performAll_eq ex ops
  have hnil : l ++ (Roster.of s w).log.flatMap R.ofSlice = l := List.append_nil l
  rw [hnil] at hroster
  rw [← hplain]
  exact hroster

end Recording

end TuneBlocks
