import TuneBlocks.Session
import TuneBlocks.Proofs.Pass
import TuneBlocks.Proofs.Steps
import TuneBlocks.Proofs.WellFormed

/-!
# What the check is good for

The threads of a program that passes the check stay inside it (`session_stays_inside`): a thread is
always in a block of its routine and at an instruction of the block, or at the start of one without
instructions. It halts only there. The handlers of the registry may do what they like, except to
move a thread or halt it (`Registry.KeepsPlace`).
-/

namespace TuneBlocks

/-! ## Places -/

/-- The index is one of an instruction of the block, or the block has none and the index is zero. -/
def Routine.Placed (r : Routine) (c : Context) : Prop :=
  ∃ b, r.block? c.block = some b ∧
    (c.ip < b.instructions.length ∨ b.instructions = [] ∧ c.ip = 0)

/-- The thread is in a block where threads halt. -/
def Routine.AtEnd (r : Routine) (c : Context) : Prop :=
  ∃ b, r.block? c.block = some b ∧ b.instructions = []

/-- After some slices the routine of a thread is there and the thread is placed in it, and another
slice halts the thread only in a block without instructions. -/
def Interpreter.StaysInside {σ : Type} (m : Interpreter σ) (t : Thread)
    (calls : List (SliceCall σ)) : Prop :=
  ∃ r, m.program.routine? t.routine = some r ∧
    r.Placed (m.contextAfter t.routine t.context calls) ∧
    ∀ call, (m.answer t.routine (m.contextAfter t.routine t.context calls) call).status = .halted →
      r.AtEnd (m.answer t.routine (m.contextAfter t.routine t.context calls) call).context

/-- The handlers leave a thread at the instruction where it is. They may end its slice in any
way. -/
structure Registry.LeavesInPlace {σ : Type} (registry : Registry σ) : Prop where
  block : registry.handler? name = some handler → ∀ args now c w,
    (handler args now c w).context.block = c.block
  ip : registry.handler? name = some handler → ∀ args now c w,
    (handler args now c w).context.ip = c.ip

/-- The handlers leave a thread where it is and do not halt it. -/
structure Registry.KeepsPlace {σ : Type} (registry : Registry σ) : Prop
    extends Registry.LeavesInPlace registry where
  running : registry.handler? name = some handler → ∀ args now c w,
    (handler args now c w).status ≠ some .halted

theorem Registry.Transparent.keepsPlace {σ : Type} {registry : Registry σ}
    (h : registry.Transparent) : registry.KeepsPlace where
  block hhandler args now c w := by rw [h.context hhandler]
  ip hhandler args now c w := by rw [h.context hhandler]
  running := h.running

namespace Interpreter

variable {σ : Type} {registry : Registry σ} {r : Routine}

/-- Where an action may bring a thread. -/
def Arrives (a : Action) (c c' : Context) : Prop :=
  if a.isTerminator then c'.block ∈ a.targets ∧ c'.ip = 0 else c'.block = c.block ∧ c'.ip = c.ip

/-- The thread is in its block or at a target after an action, also where that ends the slice. -/
theorem arrives_ending (hregistry : registry.LeavesInPlace) (a : Action) (now : Float)
    (c : Context) (w : σ) : Arrives a c (execute registry a now c w).ending.context := by
  cases a with
  | declare name v => exact ⟨rfl, rfl⟩
  | assign name v => exact ⟨rfl, rfl⟩
  | add name amount => exact ⟨rfl, rfl⟩
  | jump target => exact ⟨List.mem_singleton.2 rfl, rfl⟩
  | branch op left right ifTrue ifFalse =>
    refine ⟨?_, rfl⟩
    simp only [execute, Turn.ending, Context.jump, Action.targets, List.mem_cons,
      List.not_mem_nil, or_false]
    split
    · exact .inl rfl
    · exact .inr rfl
  | call name args =>
    cases hhandler : registry.handler? name with
    | none =>
      simp only [execute, hhandler]
      exact ⟨rfl, rfl⟩
    | some handler =>
      have hplace : Arrives (.call name args) c (handler (args.map c.resolve) now c w).context :=
        ⟨hregistry.block hhandler _ now c w, hregistry.ip hhandler _ now c w⟩
      simp only [execute, hhandler]
      split
      · exact hplace
      · exact hplace
  | yield => exact ⟨rfl, rfl⟩

theorem ending_ne_halted (hregistry : registry.KeepsPlace) (a : Action) (now : Float) (c : Context)
    (w : σ) : (execute registry a now c w).ending.status ≠ .halted := by
  cases a with
  | call name args =>
    cases hhandler : registry.handler? name with
    | none =>
      simp only [execute, hhandler]
      exact Status.noConfusion
    | some handler =>
      simp only [execute, hhandler]
      split
      · rename_i status hstatus
        intro hhalted
        exact hregistry.running hhandler _ now c w (hstatus.trans (congrArg some hhalted))
      · exact Status.noConfusion
  | _ => exact Status.noConfusion

theorem execute_arrives (hregistry : registry.KeepsPlace) (a : Action) (now : Float) (c : Context)
    (w : σ) : LeavesAs (Arrives a c) (execute registry a now c w) :=
  leavesAs_iff.2 ⟨ending_ne_halted hregistry a now c w,
    arrives_ending hregistry.toLeavesInPlace a now c w⟩

theorem placed_of_mem_keys {c : Context} (hblock : c.block ∈ r.blocks.keys) (hip : c.ip = 0) :
    r.Placed c := by
  cases hb : r.block? c.block with
  | none => exact absurd hblock (Keyed.get?_eq_none_iff.1 hb)
  | some b =>
    refine ⟨b, hb, ?_⟩
    cases hinstructions : b.instructions with
    | nil => exact .inr ⟨rfl, hip⟩
    | cons i rest =>
      left
      rw [hip, List.length_cons]
      exact Nat.succ_pos _

/-- A thread that goes past an instruction of a well-formed routine is placed again. -/
theorem placed_of_arrives (hr : r.WF) {c c' : Context} {b : BasicBlock} {i : Instruction}
    (hb : r.block? c.block = some b) (hi : b.instructions[c.ip]? = some i)
    (h : Arrives i.action (advance c i) c') : r.Placed c' := by
  have hwf := hr.blocks (Keyed.get?_eq_some_iff.1 hb)
  unfold Arrives at h
  split at h
  · -- a jump leads to a block of the routine
    have hmem := List.mem_of_getElem? hi
    exact placed_of_mem_keys (hwf.targets i hmem c'.block h.1) h.2
  · -- no jump, so not the last instruction of the block
    rename_i hjump
    obtain ⟨hblock, hip⟩ := h
    have hlast : c.ip + 1 ≠ b.instructions.length := fun hlast => hjump ((hwf.jumps hi).2 hlast)
    have hlt := (List.getElem?_eq_some_iff.1 hi).1
    refine ⟨b, ?_, .inl ?_⟩
    · rw [hblock]
      exact hb
    · rw [hip]
      change c.ip + 1 < b.instructions.length
      omega

/-- What is known of the end of a slice. -/
def EndsPlaced (r : Routine) (result : SliceEnd σ) : Prop :=
  r.Placed result.context ∧ (result.status = .halted → r.AtEnd result.context)

/-- A turn keeps a thread placed, and halts it only at its end. -/
theorem turn_placed (hregistry : registry.KeepsPlace) (hr : r.WF) {c : Context} (hc : r.Placed c)
    (breakpoints : List NodeId) (now : Float) (w : σ) :
    Meets r.Placed (EndsPlaced r) (turn registry r breakpoints now c w) := by
  obtain ⟨b, hb, hip⟩ := id hc
  have hfetch : fetch? r c = b.instructions[c.ip]? := by rw [fetch?, hb, Option.bind_some]
  unfold turn
  cases hi : b.instructions[c.ip]? with
  | none =>
    rw [hfetch, hi]
    have hge := List.getElem?_eq_none_iff.1 hi
    rcases hip with hlt | ⟨hempty, -⟩
    · omega
    · exact ⟨hc, fun _ => ⟨b, hb, hempty⟩⟩
  | some i =>
    simp only [hfetch, hi]
    cases stopsAt? breakpoints c i with
    | some node => exact ⟨hc, Status.noConfusion⟩
    | none =>
      have hplaced : ∀ c', Arrives i.action (advance c i) c' → r.Placed c' :=
        fun c' => placed_of_arrives hr hb hi
      exact (execute_arrives hregistry i.action now (advance c i) w).mono hplaced
        fun result h => ⟨hplaced result.context h.2, fun hhalted => absurd hhalted h.1⟩

variable {m : Interpreter σ} {routine : String}

theorem answer_placed (hregistry : m.registry.KeepsPlace) (hr : r.WF)
    (hroutine : m.program.routine? routine = some r) {c : Context} (hc : r.Placed c)
    (call : SliceCall σ) : EndsPlaced r (m.answer routine c call) := by
  rw [answer_eq_run hroutine]
  exact run_induction (fun c w hc => ⟨hc, Status.noConfusion⟩)
    (fun c w hc => turn_placed hregistry hr hc call.breakpoints call.now w) call.budget hc
    call.world

theorem contextAfter_placed (hregistry : m.registry.KeepsPlace) (hr : r.WF)
    (hroutine : m.program.routine? routine = some r) {c : Context} (hc : r.Placed c)
    (calls : List (SliceCall σ)) : r.Placed (m.contextAfter routine c calls) := by
  induction calls generalizing c with
  | nil => exact hc
  | cons call calls ih => exact ih (answer_placed hregistry hr hroutine hc call).1

end Interpreter

/-! ## Sessions -/

/-- Plays a note three times. -/
def Interpreter.playThrice : Interpreter Sink where
  program := Program.empty.addRoutine <| Routine.addBlock (.addBlock ⟨"main", "again", ∅⟩
    ⟨"again", [(Action.call "play_note" []).tagged "note",
      (Action.add "n" (.literal (.number 1))).tagged "note",
      (Action.branch .lt "n" (.literal (.number 3)) "again" "done").untagged]⟩) ⟨"done", []⟩
  registry := .standard Sink

namespace Session

variable {σ : Type}

/-- The threads of a program are at the entries of its routines. -/
theorem threads_threadsOf (p : Program) :
    (threadsOf p : Scheduler (Machine σ)).threads =
      p.routines.values.map fun r => ⟨r.name, r.name, .start r.name r.entry⟩ := by
  rw [threadsOf, Scheduler.foldl_schedule]
  simp [Scheduler.threads, Scheduler.new]

theorem scheduler_of_start {m : Interpreter σ} {w w' : σ} {s : Session σ}
    (h : start m w = (.ok s, w')) : s.scheduler = threadsOf m.program := by
  unfold start at h
  split at h
  · cases h
    rfl
  · cases h

/-- **Threads of checked programs stay inside them**, whatever the budgets, times, breakpoints and
worlds of their slices are. -/
theorem session_stays_inside (m : Interpreter σ) (hcheck : m.program.violations = [])
    (hregistry : m.registry.KeepsPlace) (w w' : σ) (s : Session σ)
    (hstart : start m w = (.ok s, w')) (t : Thread) (ht : t ∈ s.scheduler.threads)
    (calls : List (SliceCall σ)) : m.StaysInside t calls := by
  rw [scheduler_of_start hstart, threads_threadsOf] at ht
  obtain ⟨r, hr, rfl⟩ := List.mem_map.1 ht
  obtain ⟨⟨key, r⟩, hentry, rfl⟩ := List.mem_map.1 hr
  obtain ⟨rfl, hwf⟩ := Program.violations_eq_nil_iff.1 hcheck key r hentry
  have hroutine : m.program.routine? r.name = some r := Keyed.get?_eq_some_iff.2 hentry
  have hfirst : r.Placed (.start r.name r.entry) :=
    Interpreter.placed_of_mem_keys hwf.entry rfl
  have hplaced := Interpreter.contextAfter_placed hregistry hwf hroutine hfirst calls
  refine ⟨r, hroutine, hplaced, fun call hhalted => ?_⟩
  exact (Interpreter.answer_placed hregistry hwf hroutine hplaced call).2 hhalted

theorem session_stays_inside_playThrice :
    Interpreter.playThrice.program.violations = [] ∧
      Interpreter.playThrice.StaysInside ⟨"main", "main", .start "main" "again"⟩
        [⟨[], 1, 0, .new⟩, ⟨["note"], 10, 500, .new⟩] := by
  have hcheck : Interpreter.playThrice.program.violations = [] := by decide
  have hregistry := (Registry.transparent_standard Sink).keepsPlace
  refine ⟨hcheck, session_stays_inside .playThrice hcheck hregistry .new _ _ rfl _ ?_ _⟩
  rw [threads_threadsOf]
  exact List.mem_singleton.2 rfl

end Session

end TuneBlocks
