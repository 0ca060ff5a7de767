import TuneBlocks.Thread.Slice

/-!
# Calls for slices

A thread is driven by calls for slices. A `SliceCall` holds what comes from outside: breakpoints,
budget, time, and the world as the slice finds it. The worlds are not chained here: between two
slices of one thread anything may happen to the world, and a statement for all worlds covers it.

`Interpreter.run_induction` is the induction over the turns of a slice.
-/

namespace TuneBlocks

/-- What a slice is called with, besides the thread. -/
structure SliceCall (σ : Type) where
  breakpoints : List NodeId
  budget : Nat
  now : Float
  world : σ

/-- The first calls of a sequence. -/
def SliceCall.first {σ : Type} (calls : Nat → SliceCall σ) (k : Nat) : List (SliceCall σ) :=
  (List.range k).map calls

theorem SliceCall.first_succ {σ : Type} (calls : Nat → SliceCall σ) (k : Nat) :
    first calls (k + 1) = first calls k ++ [calls k] := by
  simp only [first, List.range_succ, List.map_append, List.map_cons, List.map_nil]

theorem SliceCall.length_first {σ : Type} (calls : Nat → SliceCall σ) (k : Nat) :
    (first calls k).length = k := by
  rw [first, List.length_map, List.length_range]

/-- The end of a slice whose last turn this is. -/
def Turn.ending {σ : Type} : Turn σ → SliceEnd σ
  | .stop result => result
  | .next c w => ⟨.ready, c, w⟩

/-- What comes of a reply: the slice ends, or the next instruction may follow. -/
def Reply.turn {σ : Type} (reply : Reply σ) : Turn σ :=
  match reply.status with
  | some status => .stop ⟨status, reply.context, reply.world⟩
  | none => .next reply.context reply.world

namespace Interpreter

variable {σ : Type}

theorem execute_call {registry : Registry σ} {name : String} {handler : Handler σ}
    (hhandler : registry.handler? name = some handler) (args : List Operand) (now : Float)
    (c : Context) (w : σ) : execute registry (.call name args) now c w =
      (handler (args.map c.resolve) now c w).turn := by
  simp only [execute, hhandler]
  rfl

/-- The slice that a call asks for. -/
def answer (m : Interpreter σ) (routine : String) (c : Context) (call : SliceCall σ) : SliceEnd σ :=
  m.slice call.breakpoints routine c call.budget call.now call.world

/-- The thread after a sequence of calls. -/
def contextAfter (m : Interpreter σ) (routine : String) (c : Context)
    (calls : List (SliceCall σ)) : Context :=
  calls.foldl (fun c call => (m.answer routine c call).context) c

theorem contextAfter_concat (m : Interpreter σ) (routine : String) (c : Context)
    (calls : List (SliceCall σ)) (call : SliceCall σ) :
    m.contextAfter routine c (calls ++ [call]) =
      (m.answer routine (m.contextAfter routine c calls) call).context :=
  List.foldl_append ..

theorem answer_eq_run {m : Interpreter σ} {routine : String} {r : Routine}
    (hr : m.program.routine? routine = some r) (c : Context) (call : SliceCall σ) :
    m.answer routine c call =
      run m.registry r call.breakpoints call.now call.budget c call.world := by
  simp only [answer, slice, hr]

/-- The turn goes on with a thread as `P` says, or ends the slice as `Q` says. -/
def Meets (P : Context → Prop) (Q : SliceEnd σ → Prop) : Turn σ → Prop
  | .stop result => Q result
  | .next c _ => P c

/-- The turn does not halt the thread, and leaves it as `P` says. -/
def LeavesAs (P : Context → Prop) : Turn σ → Prop :=
  Meets P fun result => result.status ≠ .halted ∧ P result.context

theorem leavesAs_iff {P : Context → Prop} {t : Turn σ} :
    LeavesAs P t ↔ t.ending.status ≠ .halted ∧ P t.ending.context := by
  cases t with
  | stop result => exact Iff.rfl
  | next c w => exact (and_iff_right Status.noConfusion).symm

theorem Meets.mono {P P' : Context → Prop} {Q Q' : SliceEnd σ → Prop} {t : Turn σ}
    (h : Meets P Q t) (hP : ∀ c, P c → P' c) (hQ : ∀ result, Q result → Q' result) :
    Meets P' Q' t := by
  cases t with
  | stop result => exact hQ result h
  | next c w => exact hP c h

theorem leavesAs_call {registry : Registry σ} {name : String} {handler : Handler σ}
    (hhandler : registry.handler? name = some handler) {P : Context → Prop} (args : List Operand)
    (now : Float) (c : Context) (w : σ)
    (hP : P (handler (args.map c.resolve) now c w).context)
    (hrunning : (handler (args.map c.resolve) now c w).status ≠ some .halted) :
    LeavesAs P (execute registry (.call name args) now c w) := by
  rw [execute_call hhandler, Reply.turn]
  split
  · rename_i status hstatus
    refine ⟨fun hhalted => ?_, hP⟩
    exact hrunning (hstatus.trans (congrArg some hhalted))
  · exact hP

theorem run_induction {registry : Registry σ} {r : Routine} {breakpoints : List NodeId}
    {now : Float} {P : Context → Prop} {Q : SliceEnd σ → Prop}
    (hready : ∀ c w, P c → Q ⟨.ready, c, w⟩)
    (hturn : ∀ c w, P c → Meets P Q (turn registry r breakpoints now c w))
    (budget : Nat) {c : Context} (hc : P c) (w : σ) :
    Q (run registry r breakpoints now budget c w) := by
  induction budget generalizing c w with
  | zero => exact hready c w hc
  | succ budget ih =>
    have hmeets := hturn c w hc
    unfold run
    cases hnext : turn registry r breakpoints now c w with
    | stop result =>
      rw [hnext] at hmeets
      exact hmeets
    | next c' w' =>
      rw [hnext] at hmeets
      exact ih hmeets w'

end Interpreter

end TuneBlocks
