import TuneBlocks.Proofs.Soundness

/-!
# Breakpoints and execution

Breakpoints decide where the slices of a thread stop, and nothing else. A slice that stops at one
has done what the slice without breakpoints does first (`run_breakpoints`), and the next slice goes
past it. So a thread whose slices are called again after each stop executes the same instructions as
it does without breakpoints (`breakpoints_transparent`).

Only the mark of where a thread is parked differs. It concerns the breakpoints alone as long as the
handlers of the registry do not look at it (`Registry.IgnoresParking`).
-/

namespace TuneBlocks

/-- The thread without the mark of where it is parked. -/
def Context.unparked (c : Context) : Context := { c with parked := none }

theorem Context.unparked_eq_iff {c c' : Context} :
    c.unparked = c'.unparked ↔ ∃ parked, c' = { c with parked } := by
  constructor
  · intro h
    simp only [unparked, Context.mk.injEq] at h
    obtain ⟨hthread, hmemory, hblock, hip, hnode, -⟩ := h
    exact ⟨c'.parked, Context.ext hthread.symm hmemory.symm hblock.symm hip.symm hnode.symm rfl⟩
  · rintro ⟨parked, rfl⟩
    rfl

/-- The slices end alike, but for where the thread is parked. -/
structure SliceEnd.Alike {σ : Type} (e e' : SliceEnd σ) : Prop where
  status : e.status = e'.status
  context : e.context.unparked = e'.context.unparked
  world : e.world = e'.world

/-- The turns go on or end alike, but for where the thread is parked. -/
inductive Turn.Alike {σ : Type} : Turn σ → Turn σ → Prop
  | stop : e.Alike e' → Alike (.stop e) (.stop e')
  | next : c.unparked = c'.unparked → Alike (.next c w) (.next c' w)

/-- No handler stops a thread at a breakpoint. -/
def Registry.NeverStops {σ : Type} (registry : Registry σ) : Prop :=
  ∀ name handler, registry.handler? name = some handler → ∀ args now c w node,
    (handler args now c w).status ≠ some (.breakpoint node)

/-- The handlers neither look at where a thread is parked nor stop it at a breakpoint. -/
structure Registry.IgnoresParking {σ : Type} (registry : Registry σ) : Prop where
  status : registry.handler? name = some handler → ∀ args now c w parked,
    (handler args now { c with parked } w).status = (handler args now c w).status
  context : registry.handler? name = some handler → ∀ args now c w parked,
    (handler args now { c with parked } w).context.unparked =
      (handler args now c w).context.unparked
  world : registry.handler? name = some handler → ∀ args now c w parked,
    (handler args now { c with parked } w).world = (handler args now c w).world
  running : registry.handler? name = some handler → ∀ args now c w node,
    (handler args now c w).status ≠ some (.breakpoint node)

theorem Registry.IgnoresParking.neverStops {σ : Type} {registry : Registry σ}
    (h : registry.IgnoresParking) : registry.NeverStops :=
  fun _ _ hhandler => h.running hhandler

theorem Registry.ignoresParking_standard (σ : Type) [HasSink σ] :
    (Registry.standard σ).IgnoresParking where
  status h args now c w parked := by cases answers_of_handler? σ h <;> rfl
  context h args now c w parked := by cases answers_of_handler? σ h <;> rfl
  world h args now c w parked := by cases answers_of_handler? σ h <;> rfl
  running h args now c w node := by
    cases answers_of_handler? σ h <;> intro hstatus <;> cases hstatus

namespace Interpreter

variable {σ : Type} {registry : Registry σ} {r : Routine} {breakpoints : List NodeId} {now : Float}

/-! ## Instructions of a slice -/

/-- The instruction that the next turn executes. -/
def due? (r : Routine) (breakpoints : List NodeId) (c : Context) : Option Instruction :=
  (fetch? r c).filter fun i => (stopsAt? breakpoints c i).isNone

theorem due?_nil (r : Routine) (c : Context) : due? r [] c = fetch? r c := by
  cases hi : fetch? r c <;> simp [due?, hi, stopsAt?_nil]

/-- The instructions that the turns of a slice execute. -/
def executed (registry : Registry σ) (r : Routine) (breakpoints : List NodeId) (now : Float) :
    Nat → Context → σ → List Instruction
  | 0, _, _ => []
  | budget + 1, c, w =>
    (due? r breakpoints c).toList ++
      match turn registry r breakpoints now c w with
      | .stop _ => []
      | .next c w => executed registry r breakpoints now budget c w

/-- A number of turns that all go on, with the instructions they execute. -/
inductive Proceeds (registry : Registry σ) (r : Routine) (now : Float) :
    Context → σ → List Instruction → Context → σ → Prop
  | refl : Proceeds registry r now c w [] c w
  | head : due? r [] c = some i → turn registry r [] now c w = .next c' w' →
      Proceeds registry r now c' w' is c'' w'' → Proceeds registry r now c w (i :: is) c'' w''

namespace Proceeds

theorem run_add (h : Proceeds registry r now c w is c' w') (n : Nat) :
    run registry r [] now (is.length + n) c w = run registry r [] now n c' w' := by
  induction h with
  | refl => rw [List.length_nil, Nat.zero_add]
  | head _ hturn _ ih =>
    rw [List.length_cons, Nat.add_right_comm, run, hturn]
    exact ih

theorem executed_add (h : Proceeds registry r now c w is c' w') (n : Nat) :
    executed registry r [] now (is.length + n) c w = is ++ executed registry r [] now n c' w' := by
  induction h with
  | refl => rw [List.length_nil, Nat.zero_add, List.nil_append]
  | head hdue hturn _ ih =>
    rw [List.length_cons, Nat.add_right_comm, executed, hdue, hturn]
    exact congrArg _ ih

end Proceeds

/-! ## One slice -/

def Reaches (r : Routine) (breakpoints : List NodeId) (c : Context) (node : NodeId) : Prop :=
  ∃ i, fetch? r c = some i ∧ stopsAt? breakpoints c i = some node

theorem turn_breakpoints (registry : Registry σ) (r : Routine) (breakpoints : List NodeId)
    (now : Float) (c : Context) (w : σ) :
    turn registry r breakpoints now c w = turn registry r [] now c w ∧
        due? r breakpoints c = due? r [] c ∨
      ∃ node, Reaches r breakpoints c node ∧ due? r breakpoints c = none ∧
        turn registry r breakpoints now c w =
          .stop ⟨.breakpoint node, { c with parked := some node }, w⟩ := by
  cases hi : fetch? r c with
  | none =>
    left
    simp only [turn, due?, hi, Option.filter_none, and_self]
  | some i =>
    cases hstop : stopsAt? breakpoints c i with
    | none =>
      left
      simp only [turn, due?, hi, hstop, stopsAt?_nil, Option.filter_some, and_self]
    | some node =>
      right
      refine ⟨node, ⟨i, hi, hstop⟩, ?_, ?_⟩
      · simp only [due?, hi, Option.filter_some, hstop, Option.isNone_some, Bool.false_eq_true,
          ↓reduceIte]
      · simp only [turn, hi, hstop]

theorem exists_due_of_next (h : turn registry r [] now c w = .next c' w') :
    ∃ i, due? r [] c = some i := by
  rw [due?_nil]
  cases hi : fetch? r c with
  | none =>
    simp only [turn, hi] at h
    cases h
  | some i => exact ⟨i, rfl⟩

/-- **Breakpoints change nothing about a slice, or cut it short** before an instruction that is not
executed. -/
theorem run_breakpoints (registry : Registry σ) (r : Routine) (breakpoints : List NodeId)
    (now : Float) (budget : Nat) (c : Context) (w : σ) :
    run registry r breakpoints now budget c w = run registry r [] now budget c w ∧
        executed registry r breakpoints now budget c w = executed registry r [] now budget c w ∨
      ∃ node is c' w', is.length < budget ∧ Proceeds registry r now c w is c' w' ∧
        Reaches r breakpoints c' node ∧ executed registry r breakpoints now budget c w = is ∧
        run registry r breakpoints now budget c w =
          ⟨.breakpoint node, { c' with parked := some node }, w'⟩ := by
  induction budget generalizing c w with
  | zero => exact .inl ⟨rfl, rfl⟩
  | succ budget ih =>
    rcases turn_breakpoints registry r breakpoints now c w with
      ⟨hturn, hdue⟩ | ⟨node, hreaches, hdue, hturn⟩
    · simp only [run, executed, hturn, hdue]
      cases hnext : turn registry r [] now c w with
      | stop e => exact .inl ⟨rfl, rfl⟩
      | next c₁ w₁ =>
        simp only
        rcases ih c₁ w₁ with ⟨hrun, hexecuted⟩ |
          ⟨node, is, c', w', hlength, hproceeds, hreaches, hexecuted, hrun⟩
        · exact .inl ⟨hrun, by rw [hexecuted]⟩
        · obtain ⟨i, hi⟩ := exists_due_of_next hnext
          refine .inr ⟨node, i :: is, c', w', ?_, .head hi hnext hproceeds, hreaches, ?_, hrun⟩
          · exact Nat.succ_lt_succ hlength
          · rw [hi, hexecuted]
            rfl
    · refine .inr ⟨node, [], c, w, Nat.succ_pos budget, .refl, hreaches, ?_, ?_⟩
      · simp only [executed, hdue, hturn, Option.toList_none, List.append_nil]
      · simp only [run, hturn]

theorem stopsAt?_eq_some_iff {c : Context} {i : Instruction} {node : NodeId} :
    stopsAt? breakpoints c i = some node ↔
      i.source = some node ∧ node ∈ breakpoints ∧ c.parked ≠ some node := by
  rw [stopsAt?, Option.filter_eq_some_iff, Bool.and_eq_true, decide_eq_true_iff, bne_iff_ne]

/-- The thread is parked before an instruction, at the instruction's node. -/
structure ParkedAt (r : Routine) (c : Context) (i : Instruction) (node : NodeId) : Prop where
  fetch : fetch? r c = some i
  source : i.source = some node
  parked : c.parked = some node

theorem parkedAt_of_stopsAt? (hi : fetch? r c = some i)
    (hstop : stopsAt? breakpoints c i = some node) :
    ParkedAt r { c with parked := some node } i node :=
  ⟨hi, (stopsAt?_eq_some_iff.1 hstop).1, rfl⟩

/-- A thread gets past the breakpoint where it is parked, whatever the breakpoints are by then. -/
theorem ParkedAt.due? (h : ParkedAt r c i node) (breakpoints : List NodeId) :
    due? r breakpoints c = some i := by
  simp [Interpreter.due?, h.fetch, stopsAt?, h.source, h.parked, Option.filter_some]

/-- A thread that stopped at a breakpoint executes the instruction behind it next. -/
theorem executed_of_parked (hreaches : Reaches r breakpoints c node) (registry : Registry σ)
    (now : Float) {budget : Nat} (hbudget : 1 ≤ budget) (w : σ) :
    executed registry r breakpoints now budget { c with parked := some node } w ≠ [] := by
  obtain ⟨i, hi, hstop⟩ := hreaches
  obtain ⟨budget, rfl⟩ := Nat.exists_eq_add_of_le' hbudget
  rw [executed, (parkedAt_of_stopsAt? hi hstop).due?]
  exact List.cons_ne_nil _ _

/-! ## Where a thread is parked -/

theorem execute_unparked (hregistry : registry.IgnoresParking) (a : Action) (now : Float)
    (c : Context) (parked : Option NodeId) (w : σ) :
    (execute registry a now { c with parked } w).Alike (execute registry a now c w) := by
  cases a with
  | call name args =>
    cases hhandler : registry.handler? name with
    | none =>
      simp only [execute, hhandler]
      exact .next rfl
    | some handler =>
      have hresolve : ({ c with parked } : Context).resolve = c.resolve := rfl
      have hstatus := hregistry.status hhandler (args.map c.resolve) now c w parked
      have hcontext := hregistry.context hhandler (args.map c.resolve) now c w parked
      have hworld := hregistry.world hhandler (args.map c.resolve) now c w parked
      simp only [execute, hhandler, hresolve, hstatus, hworld]
      split
      · exact .stop ⟨rfl, hcontext, rfl⟩
      · exact .next hcontext
  | yield => exact .stop ⟨rfl, rfl, rfl⟩
  | _ => exact .next rfl

theorem turn_unparked (hregistry : registry.IgnoresParking) (now : Float) (c : Context)
    (parked : Option NodeId) (w : σ) :
    (turn registry r [] now { c with parked } w).Alike (turn registry r [] now c w) := by
  have hfetch : fetch? r { c with parked } = fetch? r c := rfl
  unfold turn
  rw [hfetch]
  cases fetch? r c with
  | none => exact .stop ⟨rfl, rfl, rfl⟩
  | some i =>
    simp only [stopsAt?_nil]
    exact execute_unparked hregistry i.action now (advance c i) _ w

/-- Without breakpoints it makes no difference where a thread is parked. -/
theorem run_unparked (hregistry : registry.IgnoresParking) (now : Float) (budget : Nat)
    {c c' : Context} (hc : c.unparked = c'.unparked) (w : σ) :
    (run registry r [] now budget c w).Alike (run registry r [] now budget c' w) ∧
      executed registry r [] now budget c w = executed registry r [] now budget c' w := by
  induction budget generalizing c c' w with
  | zero => exact ⟨⟨rfl, hc, rfl⟩, rfl⟩
  | succ budget ih =>
    obtain ⟨parked, rfl⟩ := Context.unparked_eq_iff.1 hc.symm
    have halike := turn_unparked (r := r) hregistry now c' parked w
    have hfetch : fetch? r { c' with parked } = fetch? r c' := rfl
    simp only [run, executed, due?_nil, hfetch]
    generalize turn registry r [] now { c' with parked } w = t at halike ⊢
    generalize turn registry r [] now c' w = t' at halike ⊢
    cases halike with
    | stop h => exact ⟨h, rfl⟩
    | next h =>
      obtain ⟨hrun, hexecuted⟩ := ih h _
      exact ⟨hrun, congrArg _ hexecuted⟩

theorem execute_ne_breakpoint (hregistry : registry.NeverStops) (a : Action) (now : Float)
    (c : Context) (w : σ) (node : NodeId) :
    Meets (fun _ => True) (fun e => e.status ≠ .breakpoint node) (execute registry a now c w) := by
  cases a with
  | call name args =>
    cases hhandler : registry.handler? name with
    | none =>
      simp only [execute, hhandler]
      trivial
    | some handler =>
      simp only [execute, hhandler]
      split
      · rename_i status hstatus
        intro hhit
        exact hregistry name handler hhandler _ now c w node (hstatus.trans (congrArg some hhit))
      · trivial
  | yield => exact Status.noConfusion
  | _ => trivial

theorem run_ne_breakpoint (hregistry : registry.NeverStops) (now : Float) (budget : Nat)
    (c : Context) (w : σ) (node : NodeId) :
    (run registry r [] now budget c w).status ≠ .breakpoint node := by
  refine run_induction (P := fun _ => True) (Q := fun e => e.status ≠ .breakpoint node)
    (fun _ _ _ => Status.noConfusion) (fun c w _ => ?_) budget trivial w
  unfold turn
  cases fetch? r c with
  | none => exact Status.noConfusion
  | some i =>
    simp only [stopsAt?_nil]
    exact execute_ne_breakpoint hregistry i.action now (advance c i) w node

/-! ## Calls -/

/-- The instructions of the slice that a call asks for. -/
def answerInstructions (m : Interpreter σ) (routine : String) (c : Context) (call : SliceCall σ) :
    List Instruction :=
  match m.program.routine? routine with
  | none => []
  | some r => executed m.registry r call.breakpoints call.now call.budget c call.world

def instructionsAfter (m : Interpreter σ) (routine : String) (c : Context) :
    List (SliceCall σ) → List Instruction
  | [] => []
  | call :: calls =>
    m.answerInstructions routine c call ++
      m.instructionsAfter routine (m.answer routine c call).context calls

variable {m : Interpreter σ} {routine : String}

theorem answer_unparked (hregistry : m.registry.IgnoresParking) (routine : String) {c c' : Context}
    (hc : c.unparked = c'.unparked) {call : SliceCall σ} (hcall : call.breakpoints = []) :
    (m.answer routine c call).Alike (m.answer routine c' call) ∧
      m.answerInstructions routine c call = m.answerInstructions routine c' call := by
  unfold answer slice answerInstructions
  rw [hcall]
  cases m.program.routine? routine with
  | none => exact ⟨⟨rfl, hc, rfl⟩, rfl⟩
  | some r => exact run_unparked hregistry call.now call.budget hc call.world

theorem after_unparked (hregistry : m.registry.IgnoresParking) (routine : String) {c c' : Context}
    (hc : c.unparked = c'.unparked) {calls : List (SliceCall σ)}
    (hcalls : ∀ call ∈ calls, call.breakpoints = []) :
    m.instructionsAfter routine c calls = m.instructionsAfter routine c' calls ∧
      (m.contextAfter routine c calls).unparked = (m.contextAfter routine c' calls).unparked := by
  induction calls generalizing c c' with
  | nil => exact ⟨rfl, hc⟩
  | cons call calls ih =>
    obtain ⟨halike, hfirst⟩ := answer_unparked hregistry routine hc
      (hcalls call List.mem_cons_self)
    obtain ⟨hrest, hcontext⟩ := ih halike.context
      fun other hother => hcalls other (List.mem_cons_of_mem _ hother)
    refine ⟨?_, hcontext⟩
    rw [instructionsAfter, instructionsAfter, hfirst, hrest]

theorem answer_ne_breakpoint (hregistry : m.registry.NeverStops) {call : SliceCall σ}
    (hcall : call.breakpoints = []) (node : NodeId) :
    (m.answer routine c call).status ≠ .breakpoint node := by
  unfold answer slice
  rw [hcall]
  cases m.program.routine? routine with
  | none => exact Status.noConfusion
  | some r =>
    exact run_ne_breakpoint hregistry call.now call.budget c call.world node

/-- A slice that stops at a breakpoint leaves the thread parked there. -/
theorem parked_of_hit (hregistry : m.registry.NeverStops)
    (h : (m.slice breakpoints routine c budget now w).status = .breakpoint node) :
    ∃ r i, m.program.routine? routine = some r ∧
      ParkedAt r (m.slice breakpoints routine c budget now w).context i node := by
  unfold slice at h ⊢
  cases hr : m.program.routine? routine with
  | none =>
    rw [hr] at h
    cases h
  | some r =>
    rw [hr] at h
    simp only at h ⊢
    rcases run_breakpoints m.registry r breakpoints now budget c w with
      ⟨hrun, -⟩ | ⟨node', is, c', w', -, -, ⟨i, hi, hstop⟩, -, hrun⟩
    · rw [hrun] at h
      exact absurd h (run_ne_breakpoint hregistry now budget c w node)
    · rw [hrun] at h ⊢
      cases h
      exact ⟨r, i, rfl, parkedAt_of_stopsAt? hi hstop⟩

/-- A thread that is parked executes the instruction that it is parked before, and a slice of one
instruction no other. -/
theorem ParkedAt.answerInstructions (hr : m.program.routine? routine = some r)
    (h : ParkedAt r c i node) (breakpoints : List NodeId) (now : Float) (w : σ) :
    m.answerInstructions routine c ⟨breakpoints, 1, now, w⟩ = [i] := by
  simp only [Interpreter.answerInstructions, hr, executed, h.due?]
  split <;> rfl

/-- The next slice executes an instruction, breakpoints or not. -/
def GetsPast (m : Interpreter σ) (routine : String) (breakpoints : List NodeId) (c : Context) :
    Prop :=
  ∀ call : SliceCall σ, call.breakpoints = breakpoints → 1 ≤ call.budget →
    m.answerInstructions routine c call ≠ []

/-- The slice stops at a breakpoint, having done what the slice without breakpoints and with a
smaller budget does. -/
structure StopsShort (m : Interpreter σ) (routine : String) (c : Context) (call : SliceCall σ)
    (node : NodeId) (budget : Nat) : Prop where
  lt : budget < call.budget
  status : (m.answer routine c call).status = .breakpoint node
  length : (m.answerInstructions routine c call).length = budget
  instructions : m.answerInstructions routine c { call with breakpoints := [], budget } =
    m.answerInstructions routine c call
  context : (m.answer routine c { call with breakpoints := [], budget }).context.unparked =
    (m.answer routine c call).context.unparked
  world : (m.answer routine c { call with breakpoints := [], budget }).world =
    (m.answer routine c call).world
  getsPast : m.GetsPast routine call.breakpoints (m.answer routine c call).context
  /-- With more budget the slice without breakpoints goes on from here. -/
  rest : ∀ n,
    (m.answer routine c { call with breakpoints := [], budget := budget + n }).Alike
        (m.answer routine (m.answer routine c call).context
          ⟨[], n, call.now, (m.answer routine c call).world⟩) ∧
      m.answerInstructions routine c { call with breakpoints := [], budget := budget + n } =
        m.answerInstructions routine c call ++
          m.answerInstructions routine (m.answer routine c call).context
            ⟨[], n, call.now, (m.answer routine c call).world⟩

theorem answer_breakpoints (hregistry : m.registry.IgnoresParking) (routine : String) (c : Context)
    (call : SliceCall σ) :
    m.answer routine c call = m.answer routine c { call with breakpoints := [] } ∧
        m.answerInstructions routine c call =
          m.answerInstructions routine c { call with breakpoints := [] } ∨
      ∃ node budget, m.StopsShort routine c call node budget := by
  cases hr : m.program.routine? routine with
  | none =>
    left
    simp only [answer, slice, answerInstructions, hr, and_self]
  | some r =>
    have hanswer := answer_eq_run hr
    have hinstructions : ∀ c call, m.answerInstructions routine c call =
        executed m.registry r call.breakpoints call.now call.budget c call.world := by
      intro c call
      simp only [answerInstructions, hr]
    rcases run_breakpoints m.registry r call.breakpoints call.now call.budget c call.world with
      ⟨hrun, hexecuted⟩ | ⟨node, is, c', w', hlength, hproceeds, hreaches, hexecuted, hrun⟩
    · left
      simp only [hanswer, hinstructions, hrun, hexecuted, and_self]
    · right
      have hrun_zero := hproceeds.run_add 0
      have hexecuted_zero := hproceeds.executed_add 0
      refine ⟨node, is.length, hlength, ?_, ?_, ?_, ?_, ?_, ?_, ?_⟩
      all_goals simp only [hanswer, hinstructions, hrun, hexecuted]
      · exact hexecuted_zero.trans (List.append_nil is)
      · exact congrArg (fun e => e.context.unparked) hrun_zero
      · exact congrArg SliceEnd.world hrun_zero
      · intro next hnext hbudget
        rw [hinstructions, hnext]
        exact executed_of_parked hreaches m.registry next.now hbudget next.world
      · intro n
        rw [hproceeds.run_add, hproceeds.executed_add]
        have hparked : c'.unparked = ({ c' with parked := some node } : Context).unparked := rfl
        obtain ⟨halike, hsame⟩ := run_unparked (r := r) hregistry call.now n hparked w'
        exact ⟨halike, congrArg _ hsame⟩

/-! ## Runs -/

/-- A thread that is driven with breakpoints, and called again after each of them, executes `is`.
The calls without breakpoints are those that its slices stand for: a slice that stopped is gone on
with at once, or at another time. -/
inductive Resumed (m : Interpreter σ) (routine : String) (breakpoints : List NodeId) :
    Context → List (SliceCall σ) → List Instruction → Context → Prop
  | nil : Resumed m routine breakpoints c [] [] c
  | ended {call : SliceCall σ} : call.breakpoints = breakpoints → 1 ≤ call.budget →
      (∀ node, (m.answer routine c call).status ≠ .breakpoint node) →
      Resumed m routine breakpoints (m.answer routine c call).context calls is c' →
      Resumed m routine breakpoints c ({ call with breakpoints := [] } :: calls)
        (m.answerInstructions routine c call ++ is) c'
  | again {call : SliceCall σ} : call.breakpoints = breakpoints → 1 ≤ call.budget →
      (m.answer routine c call).status = .breakpoint node →
      Resumed m routine breakpoints (m.answer routine c call).context
        (⟨[], n, call.now, (m.answer routine c call).world⟩ :: calls) is c' →
      Resumed m routine breakpoints c
        ({ call with
            breakpoints := []
            budget := (m.answerInstructions routine c call).length + n } :: calls)
        (m.answerInstructions routine c call ++ is) c'
  | later {call : SliceCall σ} : call.breakpoints = breakpoints → 1 ≤ call.budget →
      (m.answer routine c call).status = .breakpoint node →
      Resumed m routine breakpoints (m.answer routine c call).context calls is c' →
      Resumed m routine breakpoints c
        ({ call with
            breakpoints := []
            budget := (m.answerInstructions routine c call).length } :: calls)
        (m.answerInstructions routine c call ++ is) c'

theorem answer_of_running (hregistry : m.registry.IgnoresParking) {call : SliceCall σ}
    (h : ∀ node, (m.answer routine c call).status ≠ .breakpoint node) :
    m.answer routine c { call with breakpoints := [] } = m.answer routine c call ∧
      m.answerInstructions routine c { call with breakpoints := [] } =
        m.answerInstructions routine c call := by
  rcases answer_breakpoints hregistry routine c call with ⟨hanswer, hinstructions⟩ | hshort
  · exact ⟨hanswer.symm, hinstructions.symm⟩
  · obtain ⟨node, budget, hshort⟩ := hshort
    exact absurd hshort.status (h node)

theorem stopsShort_of_breakpoint (hregistry : m.registry.IgnoresParking) {call : SliceCall σ}
    (h : (m.answer routine c call).status = .breakpoint node) :
    m.StopsShort routine c call node (m.answerInstructions routine c call).length := by
  rcases answer_breakpoints hregistry routine c call with ⟨hanswer, -⟩ | hshort
  · rw [hanswer] at h
    exact absurd h (answer_ne_breakpoint hregistry.neverStops rfl node)
  · obtain ⟨node', budget, hshort⟩ := hshort
    rw [hshort.status] at h
    cases h
    rw [hshort.length]
    exact hshort

theorem after_cons (hregistry : m.registry.IgnoresParking) {call : SliceCall σ}
    (hc : (m.answer routine c call).context.unparked = c₁.unparked)
    (hcalls : ∀ call ∈ calls, call.breakpoints = []) :
    m.instructionsAfter routine c (call :: calls) =
        m.answerInstructions routine c call ++ m.instructionsAfter routine c₁ calls ∧
      (m.contextAfter routine c (call :: calls)).unparked =
        (m.contextAfter routine c₁ calls).unparked := by
  obtain ⟨hinstructions, hcontext⟩ := after_unparked hregistry routine hc hcalls
  refine ⟨?_, hcontext⟩
  rw [instructionsAfter, hinstructions]

namespace Resumed

/-- Wherever it stops and goes on, the thread executes what the calls without breakpoints do. -/
theorem eq_after (hregistry : m.registry.IgnoresParking)
    (h : Resumed m routine breakpoints c calls is c') :
    (∀ call ∈ calls, call.breakpoints = []) ∧ is = m.instructionsAfter routine c calls ∧
      c'.unparked = (m.contextAfter routine c calls).unparked := by
  induction h with
  | nil => exact ⟨fun _ hcall => absurd hcall List.not_mem_nil, rfl, rfl⟩
  | @ended c calls is c' call _ _ hend _ ih =>
    obtain ⟨hcalls, rfl, hc'⟩ := ih
    obtain ⟨hanswer, hinstructions⟩ := answer_of_running hregistry hend
    obtain ⟨hafter, hcontext⟩ := after_cons hregistry
      (congrArg (fun e => e.context.unparked) hanswer) hcalls
    rw [hinstructions] at hafter
    exact ⟨List.forall_mem_cons.2 ⟨rfl, hcalls⟩, hafter.symm, hc'.trans hcontext.symm⟩
  | @again c node n calls is c' call _ _ hstatus _ ih =>
    obtain ⟨hall, rfl, hc'⟩ := ih
    have hcalls := (List.forall_mem_cons.1 hall).2
    obtain ⟨halike, hinstructions⟩ := (stopsShort_of_breakpoint hregistry hstatus).rest n
    obtain ⟨hafter, hcontext⟩ := after_cons hregistry halike.context hcalls
    rw [hinstructions, List.append_assoc] at hafter
    exact ⟨List.forall_mem_cons.2 ⟨rfl, hcalls⟩, hafter.symm, hc'.trans hcontext.symm⟩
  | @later c node calls is c' call _ _ hstatus _ ih =>
    obtain ⟨hcalls, rfl, hc'⟩ := ih
    have hshort := stopsShort_of_breakpoint hregistry hstatus
    obtain ⟨hafter, hcontext⟩ := after_cons hregistry hshort.context hcalls
    rw [hshort.instructions] at hafter
    exact ⟨List.forall_mem_cons.2 ⟨rfl, hcalls⟩, hafter.symm, hc'.trans hcontext.symm⟩

end Resumed

/-- A slice comes to its end if it does from each breakpoint on. -/
theorem exists_resumed_cons (hregistry : m.registry.IgnoresParking)
    (hcalls : ∀ c, ∃ is c', Resumed m routine breakpoints c calls is c') {budget : Nat}
    (hbudget : 1 ≤ budget) (now : Float) (c : Context) (w : σ)
    (hagain : ∀ n c₁ w₁,
      (m.answerInstructions routine c ⟨breakpoints, budget, now, w⟩).length + n = budget →
      1 ≤ n → m.GetsPast routine breakpoints c₁ →
      ∃ is c', Resumed m routine breakpoints c₁ (⟨[], n, now, w₁⟩ :: calls) is c') :
    ∃ is c', Resumed m routine breakpoints c (⟨[], budget, now, w⟩ :: calls) is c' := by
  let call : SliceCall σ := ⟨breakpoints, budget, now, w⟩
  have hcall : call.breakpoints = breakpoints := rfl
  by_cases hend : ∀ node, (m.answer routine c call).status ≠ .breakpoint node
  · obtain ⟨is, c', hrest⟩ := hcalls (m.answer routine c call).context
    exact ⟨_, _, .ended hcall hbudget hend hrest⟩
  · obtain ⟨node, hnode⟩ := Classical.not_forall.1 hend
    have hstatus := Classical.not_not.1 hnode
    have hshort := stopsShort_of_breakpoint hregistry hstatus
    obtain ⟨n, hn⟩ := Nat.exists_eq_add_of_lt hshort.lt
    have hbudget_eq : (m.answerInstructions routine c call).length + (n + 1) = budget := hn.symm
    obtain ⟨is, c', hrest⟩ := hagain (n + 1) _ (m.answer routine c call).world hbudget_eq
      (Nat.le_add_left 1 n) hshort.getsPast
    have hresumed := Resumed.again hcall hbudget hstatus hrest
    rw [hbudget_eq] at hresumed
    exact ⟨_, _, hresumed⟩

/-- After a breakpoint each slice executes something, so what is left of the budget gets smaller. -/
theorem exists_resumed_of_getsPast (hregistry : m.registry.IgnoresParking)
    (hcalls : ∀ c, ∃ is c', Resumed m routine breakpoints c calls is c') {budget : Nat}
    (hbudget : 1 ≤ budget) (now : Float) {c : Context} (hc : m.GetsPast routine breakpoints c)
    (w : σ) :
    ∃ is c', Resumed m routine breakpoints c (⟨[], budget, now, w⟩ :: calls) is c' := by
  induction budget using Nat.strongRecOn generalizing c w with
  | ind budget ih =>
    refine exists_resumed_cons hregistry hcalls hbudget now c w fun n c₁ w₁ hn hpos hc₁ => ?_
    have hexecuted := List.length_pos_iff.2 (hc ⟨breakpoints, budget, now, w⟩ rfl hbudget)
    exact ih n (by omega) hpos hc₁ w₁

/-- However often it stops, the thread comes to the end of every slice. -/
theorem exists_resumed (hregistry : m.registry.IgnoresParking) (routine : String)
    (breakpoints : List NodeId) {calls : List (SliceCall σ)}
    (hcalls : ∀ call ∈ calls, call.breakpoints = [] ∧ 1 ≤ call.budget) (c : Context) :
    ∃ is c', Resumed m routine breakpoints c calls is c' := by
  induction calls generalizing c with
  | nil => exact ⟨[], c, .nil⟩
  | cons call calls ih =>
    obtain ⟨hcall, hrest⟩ := List.forall_mem_cons.1 hcalls
    obtain ⟨_, budget, now, w⟩ := call
    obtain ⟨rfl, hbudget⟩ := hcall
    refine exists_resumed_cons hregistry (ih hrest) hbudget now c w fun n c₁ w₁ _ hpos hc₁ => ?_
    exact exists_resumed_of_getsPast hregistry (ih hrest) hpos now hc₁ w₁

/-- **Breakpoints are transparent.** A slice ends as it does without them, or stops short and can go
on; and a thread that is called again after each stop comes through every sequence of slices,
executing the same instructions as it does without breakpoints. -/
theorem breakpoints_transparent (m : Interpreter σ) (hregistry : m.registry.IgnoresParking)
    (routine : String) (breakpoints : List NodeId) (c : Context) :
    (∀ call : SliceCall σ,
      (m.answer routine c call).Alike (m.answer routine c { call with breakpoints := [] }) ∧
          m.answerInstructions routine c call =
            m.answerInstructions routine c { call with breakpoints := [] } ∨
        ∃ node budget, m.StopsShort routine c call node budget) ∧
    (∀ calls : List (SliceCall σ), (∀ call ∈ calls, call.breakpoints = [] ∧ 1 ≤ call.budget) →
      ∃ is c', m.Resumed routine breakpoints c calls is c') ∧
    (∀ calls is c', m.Resumed routine breakpoints c calls is c' →
      is = m.instructionsAfter routine c calls ∧
        c'.unparked = (m.contextAfter routine c calls).unparked) := by
  refine ⟨fun call => ?_, fun calls hcalls => ?_, fun calls is c' h => ?_⟩
  · rcases answer_breakpoints hregistry routine c call with ⟨hanswer, hinstructions⟩ | hshort
    · rw [hanswer]
      exact .inl ⟨⟨rfl, rfl, rfl⟩, hinstructions⟩
    · exact .inr hshort
  · exact exists_resumed hregistry routine breakpoints hcalls c
  · exact (h.eq_after hregistry).2

theorem breakpoints_transparent_playThrice :
    let c : Context := .start "main" "again"
    let calls : List (SliceCall Sink) := [⟨[], 7, 0, .new⟩, ⟨[], 2, 500, .new⟩]
    (playThrice.answer "main" c ⟨["note"], 7, 0, .new⟩).status = .breakpoint "note" ∧
      ∃ is c', playThrice.Resumed "main" ["note"] c calls is c' ∧
        is = playThrice.instructionsAfter "main" c calls := by
  intro c calls
  obtain ⟨-, hexists, heq⟩ := breakpoints_transparent playThrice
    (Registry.ignoresParking_standard Sink) "main" ["note"] c
  obtain ⟨is, c', hresumed⟩ := hexists calls (by decide)
  exact ⟨by decide, is, c', hresumed, (heq calls is c' hresumed).1⟩

end Interpreter

end TuneBlocks
