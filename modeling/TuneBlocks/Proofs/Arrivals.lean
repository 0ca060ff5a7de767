import Mathlib.Data.List.DropRight
import TuneBlocks.Proofs.Dispatches

/-!
# Arrivals at breakpoints

What can be seen of a thread is a history of executed instructions and reported stops. With the same
breakpoints in every slice, a slice ends at a breakpoint exactly when the thread arrives there
(`Interpreter.ComesTo`): its next instruction belongs to the node, the one executed last does not,
and the arrival was not reported before. So no arrival is missed and none is reported twice, and
what may come next in a history is a matter of the history alone (`Occurrence.Follows`).

All a thread remembers is one mark, of where it is parked. `Interpreter.Kept` says what the mark is
after a history. The mark is the interpreter's own: handlers leave it alone
(`Registry.KeepsParking`).
-/

namespace TuneBlocks

/-- The handlers leave the mark of where a thread is parked as it is. -/
def Registry.KeepsParking {σ : Type} (registry : Registry σ) : Prop :=
  ∀ name handler, registry.handler? name = some handler → ∀ args now c w,
    (handler args now c w).context.parked = c.parked

/-- What is seen of a thread. -/
inductive Occurrence where
  | performed (i : Instruction)
  /-- A slice ended before an instruction of this node. -/
  | stopped (node : NodeId)
deriving DecidableEq

namespace Occurrence

def instruction? : Occurrence → Option Instruction
  | performed i => some i
  | stopped _ => none

/-- The node of the instruction that was executed last. -/
def lastNode? (history : List Occurrence) : Option NodeId :=
  (history.filterMap instruction?).getLast?.bind Instruction.source

/-- What was reported since an instruction was executed. -/
def reports (history : List Occurrence) : List Occurrence :=
  history.rtakeWhile (·.instruction?.isNone)

@[simp] theorem lastNode?_performed (history : List Occurrence) (i : Instruction) :
    lastNode? (history ++ [performed i]) = i.source := by
  simp [lastNode?, instruction?]

@[simp] theorem lastNode?_stopped (history : List Occurrence) (node : NodeId) :
    lastNode? (history ++ [stopped node]) = lastNode? history := by
  simp [lastNode?, instruction?]

@[simp] theorem reports_performed (history : List Occurrence) (i : Instruction) :
    reports (history ++ [performed i]) = [] :=
  List.rtakeWhile_concat_neg _ _ _ Bool.false_ne_true

@[simp] theorem reports_stopped (history : List Occurrence) (node : NodeId) :
    reports (history ++ [stopped node]) = reports history ++ [stopped node] :=
  List.rtakeWhile_concat_pos _ _ _ rfl

/-- What may come after a history when there are breakpoints at `breakpoints`.

An instruction with a breakpoint comes after another of its node, or after one report. What was
reported is executed next. A report is of a breakpoint that the thread did not come from, and it is
the first. -/
def Follows (breakpoints : List NodeId) (history : List Occurrence) : Occurrence → Prop
  | performed i =>
    (∀ node ∈ breakpoints, i.source = some node →
      reports history = [] ∧ lastNode? history = some node ∨
        reports history = [stopped node] ∧ lastNode? history ≠ some node) ∧
    ∀ node, stopped node ∈ reports history → i.source = some node
  | stopped node =>
    node ∈ breakpoints ∧ reports history = [] ∧ lastNode? history ≠ some node

/-- Whatever is in the history follows what was before it. -/
def Faithful (breakpoints : List NodeId) (history : List Occurrence) : Prop :=
  ∀ before o after, history = before ++ o :: after → o.Follows breakpoints before

theorem Faithful.concat {breakpoints : List NodeId} {history : List Occurrence} {o : Occurrence}
    (h : Faithful breakpoints history) (ho : o.Follows breakpoints history) :
    Faithful breakpoints (history ++ [o]) := by
  intro before o' after heq
  rcases List.eq_nil_or_concat' after with rfl | ⟨after, last, rfl⟩
  · obtain ⟨rfl, hlast⟩ := List.append_inj' heq rfl
    cases hlast
    exact ho
  · rw [← List.cons_append, ← List.append_assoc] at heq
    obtain ⟨rfl, -⟩ := List.append_inj' heq rfl
    exact h before o' after rfl

end Occurrence

open Occurrence

/-- The report of a slice that ended at a breakpoint. -/
def Status.report : Status → List Occurrence
  | .breakpoint node => [stopped node]
  | _ => []

theorem Status.report_eq_nil {status : Status} (h : ∀ node, status ≠ .breakpoint node) :
    status.report = [] := by
  cases status with
  | breakpoint node => exact absurd rfl (h node)
  | _ => rfl

namespace Interpreter

variable {σ : Type} {registry : Registry σ} {r : Routine} {breakpoints : List NodeId} {now : Float}
  {history : List Occurrence} {c : Context} {i : Instruction} {node : NodeId}

/-! ## The mark of a thread -/

/-- The thread is where the history left it: on its way, with the mark of the breakpoint that it
came from last, or parked after a report. -/
inductive Kept (r : Routine) (breakpoints : List NodeId) (history : List Occurrence) (c : Context) :
    Prop
  | moving : reports history = [] →
      (∀ node, c.parked = some node ↔ node ∈ breakpoints ∧ lastNode? history = some node) →
      Kept r breakpoints history c
  | parked {i : Instruction} {node : NodeId} : ParkedAt r c i node → node ∈ breakpoints →
      reports history = [stopped node] → lastNode? history ≠ some node →
      Kept r breakpoints history c

theorem ParkedAt.node_eq {i' : Instruction} {node' : NodeId} (h : ParkedAt r c i' node')
    (hfetch : fetch? r c = some i) (hsource : i.source = some node) : node' = node := by
  obtain rfl := Option.some.inj (hfetch.symm.trans h.fetch)
  exact Option.some.inj (h.source.symm.trans hsource)

theorem Kept.parked_ne_iff (h : Kept r breakpoints history c) (hfetch : fetch? r c = some i)
    (hsource : i.source = some node) (hmem : node ∈ breakpoints) :
    c.parked ≠ some node ↔ stopped node ∉ reports history ∧ lastNode? history ≠ some node := by
  cases h with
  | moving hreports hparked => simp [hparked, hmem, hreports]
  | parked hat _ hreports _ =>
    -- The next instruction is the one that was reported.
    obtain rfl := hat.node_eq hfetch hsource
    simp [hat.parked, hreports]

/-- A thread that stops at a breakpoint has just arrived there. -/
theorem Kept.stop (h : Kept r breakpoints history c) (hfetch : fetch? r c = some i)
    (hsource : i.source = some node) (hmem : node ∈ breakpoints) (hparked : c.parked ≠ some node) :
    (stopped node).Follows breakpoints history ∧
      Kept r breakpoints (history ++ [stopped node]) { c with parked := some node } := by
  obtain ⟨-, hlast⟩ := (h.parked_ne_iff hfetch hsource hmem).1 hparked
  have hreports : reports history = [] := by
    cases h with
    | moving hreports => exact hreports
    | parked hat =>
      obtain rfl := hat.node_eq hfetch hsource
      exact absurd hat.parked hparked
  refine ⟨⟨hmem, hreports, hlast⟩, .parked ⟨hfetch, hsource, rfl⟩ hmem ?_ ?_⟩
  · rw [reports_stopped, hreports, List.nil_append]
  · rwa [lastNode?_stopped]

theorem parked_eq_of_due (h : due? r breakpoints c = some i) (hmem : node ∈ breakpoints)
    (hsource : i.source = some node) : c.parked = some node := by
  refine Classical.byContradiction fun hparked => ?_
  have hstop := stopsAt?_eq_some_iff.2 ⟨hsource, hmem, hparked⟩
  rw [(due?_eq_some_iff.1 h).2] at hstop
  cases hstop

theorem parked_advance_iff (c : Context) (i : Instruction) :
    (advance c i).parked = some node ↔ c.parked = some node ∧ i.source = some node := by
  rw [advance, Option.filter_eq_some_iff, beq_iff_eq]

/-- An executed instruction follows the history, and its node is the mark if it has a breakpoint. -/
theorem Kept.execute (h : Kept r breakpoints history c) (hdue : due? r breakpoints c = some i)
    {c' : Context} (hc' : c'.parked = (advance c i).parked) :
    (performed i).Follows breakpoints history ∧
      Kept r breakpoints (history ++ [performed i]) c' := by
  cases h with
  | moving hreports hparked =>
    refine ⟨⟨fun node hmem hsource => ?_, fun node hreport => ?_⟩, .moving ?_ fun node => ?_⟩
    · have hlast := (hparked node).1 (parked_eq_of_due hdue hmem hsource)
      exact .inl ⟨hreports, hlast.2⟩
    · rw [hreports] at hreport
      cases hreport
    · exact reports_performed history i
    · rw [lastNode?_performed, hc', parked_advance_iff]
      constructor
      · rintro ⟨hc, hsource⟩
        exact ⟨((hparked node).1 hc).1, hsource⟩
      · rintro ⟨hmem, hsource⟩
        exact ⟨parked_eq_of_due hdue hmem hsource, hsource⟩
  | @parked _ node hat hmem hreports hlast =>
    obtain rfl := Option.some.inj ((due?_eq_some_iff.1 hdue).1.symm.trans hat.fetch)
    refine ⟨⟨fun node' _ hsource => ?_, fun node' hreport => ?_⟩, .moving ?_ fun node' => ?_⟩
    · obtain rfl := Option.some.inj (hsource.symm.trans hat.source)
      exact .inr ⟨hreports, hlast⟩
    · rw [hreports, List.mem_singleton] at hreport
      cases hreport
      exact hat.source
    · exact reports_performed history i
    · rw [lastNode?_performed, hc', parked_advance_iff, hat.parked, hat.source]
      constructor
      · rintro ⟨hnode, -⟩
        cases hnode
        exact ⟨hmem, rfl⟩
      · rintro ⟨-, hnode⟩
        exact ⟨hnode, hnode⟩

theorem parked_execute (hregistry : registry.KeepsParking) (a : Action) (now : Float) (c : Context)
    (w : σ) : (execute registry a now c w).ending.context.parked = c.parked := by
  cases a with
  | call name args =>
    cases hhandler : registry.handler? name with
    | none => simp only [execute, hhandler, Turn.ending]
    | some handler =>
      have hreply := hregistry name handler hhandler (args.map c.resolve) now c w
      simp only [execute, hhandler]
      split
      · exact hreply
      · exact hreply
  | _ => rfl

/-! ## Slices -/

/-- What is seen of a slice. -/
def occurrences (registry : Registry σ) (r : Routine) (breakpoints : List NodeId) (now : Float)
    (budget : Nat) (c : Context) (w : σ) : List Occurrence :=
  (executed registry r breakpoints now budget c w).map .performed ++
    (run registry r breakpoints now budget c w).status.report

theorem status_ne_breakpoint (hregistry : registry.NeverStops) {w : σ} {e : SliceEnd σ}
    (hdue : due? r breakpoints c = some i) (h : turn registry r breakpoints now c w = .stop e)
    (node : NodeId) : e.status ≠ .breakpoint node := by
  rw [turn_of_due hdue] at h
  have hmeets := execute_ne_breakpoint hregistry i.action now (advance c i) w node
  rw [h] at hmeets
  exact hmeets

/-- **A slice follows the history before it**, and leaves the thread where the history does then. -/
theorem kept_run (hstops : registry.NeverStops) (hparking : registry.KeepsParking) (now : Float)
    (budget : Nat) (hfaithful : Faithful breakpoints history) (h : Kept r breakpoints history c)
    (w : σ) :
    let seen := history ++ occurrences registry r breakpoints now budget c w
    Faithful breakpoints seen ∧
      Kept r breakpoints seen (run registry r breakpoints now budget c w).context := by
  induction budget generalizing history c w with
  | zero =>
    simp only [occurrences, executed, run, Status.report, List.map_nil,
      List.append_nil]
    exact ⟨hfaithful, h⟩
  | succ budget ih =>
    cases hdue : due? r breakpoints c with
    | none =>
      cases hturn : turn registry r breakpoints now c w with
      | next c₁ w₁ =>
        obtain ⟨i, hi⟩ := exists_due_of_turn hturn
        rw [hdue] at hi
        cases hi
      | stop e =>
        simp only [occurrences, executed, run, hdue, hturn, Option.toList_none,
          List.append_nil, List.map_nil, List.nil_append]
        cases turn_eq_stop_iff.1 hturn with
        | halted =>
          simp only [Status.report, List.append_nil]
          exact ⟨hfaithful, h⟩
        | breakpoint hfetch hsource hmem hparked =>
          obtain ⟨hfollows, hkept⟩ := h.stop hfetch hsource hmem hparked
          exact ⟨hfaithful.concat hfollows, hkept⟩
        | yielded hsome | called hsome =>
          rw [hdue] at hsome
          cases hsome
    | some i =>
      have hparked : (turn registry r breakpoints now c w).ending.context.parked =
          (advance c i).parked := by
        rw [turn_of_due hdue]
        exact parked_execute hparking i.action now (advance c i) w
      obtain ⟨hfollows, hkept⟩ := h.execute hdue hparked
      cases hturn : turn registry r breakpoints now c w with
      | stop e =>
        rw [hturn] at hkept
        simp only [occurrences, executed, run, hdue, hturn, Option.toList_some,
          List.append_nil, List.map_cons, List.map_nil,
          Status.report_eq_nil (status_ne_breakpoint hstops hdue hturn)]
        exact ⟨hfaithful.concat hfollows, hkept⟩
      | next c₁ w₁ =>
        rw [hturn, Turn.ending] at hkept
        have hrest := ih (hfaithful.concat hfollows) hkept w₁
        simp only [occurrences, executed, run, hdue, hturn, Option.toList_some,
          List.cons_append, List.nil_append, List.map_cons]
        simpa only [occurrences, List.append_assoc, List.cons_append, List.nil_append] using hrest

theorem Spends.executed_add {m : Nat} {c' : Context} {w w' : σ}
    (h : Spends registry r breakpoints now m c w c' w') (n : Nat) :
    executed registry r breakpoints now (m + n) c w =
      executed registry r breakpoints now m c w ++
        executed registry r breakpoints now n c' w' := by
  simp only [← map_instruction_dispatches, h.dispatches_add, List.map_append]

/-! ## Calls -/

/-- The thread comes to a node with a breakpoint, from another node and for the first time. -/
structure ComesTo (m : Interpreter σ) (routine : String) (breakpoints : List NodeId)
    (history : List Occurrence) (c : Context) (node : NodeId) : Prop where
  next : ∃ r i, m.program.routine? routine = some r ∧ fetch? r c = some i ∧ i.source = some node
  mem : node ∈ breakpoints
  fresh : lastNode? history ≠ some node
  unreported : stopped node ∉ reports history

/-- The slice of a call comes to a breakpoint after `k` instructions, with budget left. -/
structure ArrivesAfter (m : Interpreter σ) (routine : String) (history : List Occurrence)
    (c : Context) (call : SliceCall σ) (node : NodeId) (k : Nat) (c' : Context) (w' : σ) :
    Prop where
  lt : k < call.budget
  spends : m.SpendsBudget routine c { call with budget := k } c' w'
  comesTo : m.ComesTo routine call.breakpoints
    (history ++ (m.answerInstructions routine c { call with budget := k }).map .performed) c' node

variable {m : Interpreter σ} {routine : String}

theorem answerInstructions_eq (hr : m.program.routine? routine = some r) (c : Context)
    (call : SliceCall σ) :
    m.answerInstructions routine c call =
      executed m.registry r call.breakpoints call.now call.budget c call.world := by
  simp only [answerInstructions, hr]

/-- The thread after the first instructions of a slice, all of which go on. -/
theorem Spends.kept (hstops : registry.NeverStops) (hparking : registry.KeepsParking) {k : Nat}
    {c' : Context} {w w' : σ} (hspends : Spends registry r breakpoints now k c w c' w')
    (hfaithful : Faithful breakpoints history) (h : Kept r breakpoints history c) :
    Kept r breakpoints
      (history ++ (executed registry r breakpoints now k c w).map .performed) c' := by
  have hrun := hspends.run_add 0
  have hkept := (kept_run hstops hparking now k hfaithful h w).2
  rw [Nat.add_zero, run] at hrun
  have hreport : (run registry r breakpoints now k c w).status.report = [] := by
    rw [hrun]
    rfl
  rwa [occurrences, hreport, List.append_nil, hrun] at hkept

/-- A slice that comes to a breakpoint ends there, before the instruction. -/
theorem Spends.run_of_hit {k budget : Nat} {c' : Context} {w w' : σ}
    (h : Spends registry r breakpoints now k c w c' w') (hlt : k < budget)
    (hfetch : fetch? r c' = some i) (hsource : i.source = some node) (hmem : node ∈ breakpoints)
    (hparked : c'.parked ≠ some node) :
    run registry r breakpoints now budget c w =
        ⟨.breakpoint node, { c' with parked := some node }, w'⟩ ∧
      executed registry r breakpoints now budget c w =
        executed registry r breakpoints now k c w := by
  have hend : Stops registry r breakpoints now c' w'
      ⟨.breakpoint node, { c' with parked := some node }, w'⟩ :=
    .breakpoint hfetch hsource hmem hparked
  refine ⟨StopsWithin.run_eq ⟨hlt, h, hend⟩, ?_⟩
  obtain ⟨rest, rfl⟩ := Nat.exists_eq_add_of_lt hlt
  have hdue : due? r breakpoints c' = none := by
    rw [due?, hfetch, Option.filter_some, stopsAt?_eq_some_iff.2 ⟨hsource, hmem, hparked⟩]
    rfl
  rw [Nat.add_assoc, h.executed_add, executed, hdue, turn_eq_stop_iff.2 hend]
  exact List.append_nil _

theorem ArrivesAfter.answer_eq (hstops : m.registry.NeverStops)
    (hparking : m.registry.KeepsParking) (hr : m.program.routine? routine = some r)
    {call : SliceCall σ} (hfaithful : Faithful call.breakpoints history)
    (hkept : Kept r call.breakpoints history c) {k : Nat} {c' : Context} {w' : σ}
    (h : m.ArrivesAfter routine history c call node k c' w') :
    m.answer routine c call = ⟨.breakpoint node, { c' with parked := some node }, w'⟩ ∧
      m.answerInstructions routine c call =
        m.answerInstructions routine c { call with budget := k } := by
  obtain ⟨hlt, ⟨r', hr', hspends⟩, ⟨r'', i, hr'', hfetch, hsource⟩, hmem, hfresh, hnew⟩ := h
  obtain rfl := Option.some.inj (hr.symm.trans hr')
  obtain rfl := Option.some.inj (hr.symm.trans hr'')
  simp only [answerInstructions_eq hr] at hfresh hnew ⊢
  have hparked : c'.parked ≠ some node := by
    have hkept' := hspends.kept hstops hparking hfaithful hkept
    exact (hkept'.parked_ne_iff hfetch hsource hmem).2 ⟨hnew, hfresh⟩
  rw [answer_eq_run hr]
  exact hspends.run_of_hit hlt hfetch hsource hmem hparked

end Interpreter

end TuneBlocks
